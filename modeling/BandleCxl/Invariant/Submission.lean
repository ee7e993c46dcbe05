import BandleCxl.Invariant.Flow
import BandleCxl.Invariant.Ledger
import BandleCxl.Invariant.Origin

/-!
From the submitted requests to the numbered proposals. At every moment the valid
requests of the batches a client thread has submitted are, in order, the requests
it has numbered followed by those its current call has still to number; the
refused ones are counted as errors. The accounting needs a free slot of `pending_` for
every admitted request, which a bound on the node's lead gives.
-/
namespace BandleCxl.Invariant
open Library Source Bandle

structure Submitted (d : Deployment) (i : NodeId) (n : Bandle) (pc : ClientPc)
    (input batches : List (List BorrowedRequest)) (clients noops : List BandleMessage)
    (done : Nat) : Prop where
  ledger : Ledger n clients noops done
  consumed : d.input i = batches ++ input
  carried : List.Forall₂ Carries (validRequests batches.flatten) (clients ++ Client.unnumbered pc)
  errors : n.acct.errorOps = invalidCount batches.flatten
  exhausted : Client.submitting pc = false → input = []

/-- An admission leaves no more requests open than `pending_` has slots. -/
def AdmissionRoom (s : Cluster) : Action → Prop
  | .admission i _ =>
    (s.node i).acct.pendingCount + (Client.admitting (s.client i)).length ≤ kCompletionSlots
  | _ => True

/-- A lead under which there is always room: a request takes three numbers. -/
def pendingLead : Nat := 3 * kCompletionSlots

def SubmissionInv (d : Deployment) : Cluster → Prop :=
  EachNode fun i n pc input => ∃ batches clients noops done,
    Submitted d i n pc input batches clients noops done

variable {hash : Bytes → Nat} {tsc : Nat → Nat} {preload : KVStore} {d : Deployment}
  {s t : Cluster} {i : NodeId} {n n' : Bandle} {pc pc' : ClientPc}
  {input batches : List (List BorrowedRequest)} {clients noops : List BandleMessage} {done : Nat}

/-! ### Requests and proposals -/

/-- Replacing the middle part of a related list. -/
theorem forall₂_replace {α β : Type*} {R : α → β → Prop} {l : List α} {a b b' c : List β}
    (related : List.Forall₂ R l (a ++ (b ++ c)))
    (replaced : ∀ l', List.Forall₂ R l' b → List.Forall₂ R l' b') :
    List.Forall₂ R l (a ++ (b' ++ c)) := by
  have head := List.forall₂_take_append l a (b ++ c) related
  have tail := List.forall₂_drop_append l a (b ++ c) related
  have middle := List.forall₂_take_append _ b c tail
  have last := List.forall₂_drop_append _ b c tail
  have joined := List.rel_append head (List.rel_append (replaced _ middle) last)
  dsimp only at joined
  rwa [List.take_append_drop, List.take_append_drop] at joined

theorem validRequests_append (first second : List BorrowedRequest) :
    validRequests (first ++ second) = validRequests first ++ validRequests second :=
  List.filter_append ..

theorem invalidCount_append (first second : List BorrowedRequest) :
    invalidCount (first ++ second) = invalidCount first + invalidCount second :=
  List.countP_append ..

theorem submitting_nextChunk (cap : Nat) (rest : List BandleMessage) :
    Client.submitting (nextChunk cap rest) = true := by
  unfold nextChunk
  split <;> rfl

/-! ### Delivery -/

theorem advance_errorOps (n : Bandle) :
    (n.advanceExecuteLocked hash tsc).acct.errorOps = n.acct.errorOps := by
  refine advance_invariant (P := fun m => m.acct.errorOps = n.acct.errorOps) n
    (fun _ _ same => same) ?_ rfl
  intro m flag same ready
  have kept : (completeOwn tsc m.cfg.nodeId m.executeNext (m.log (slotOf m.executeNext))
      (m.acct, flag)).1.errorOps = m.acct.errorOps := by
    unfold completeOwn completePending
    dsimp only
    split_ifs <;> rfl
  exact kept.trans same

theorem recordAll_acct (n : Bandle) (msgs : List BandleMessage) :
    (recordAll n msgs).acct = n.acct := by
  induction msgs generalizing n with
  | nil => rfl
  | cons m rest ih => exact ih (n.recordProposal m)

/-- Proposals with a node's name, handled or about to be, are its own. -/
theorem FlowInv.own (h : FlowInv hash preload s) (control : ControlInv d s) {i j : NodeId}
    {msgs : List BandleMessage} (flying : ∀ m ∈ msgs, m ∈ inflight s i j) :
    Own (recordAll (s.node j) msgs) := by
  have same := ProposingSame.recordAll (s.node j) msgs
  have id : (s.node j).cfg.nodeId = number j := by rw [(control.node j).settings, d.ids j]
  have origin : ∀ m ∈ (s.node j).hist.handled ++ msgs,
      ∃ l, m.body.proposer = number l ∧ m ∈ (s.node l).hist.numbered := by
    intro m member
    rcases List.mem_append.mp member with old | new
    · exact h.handled_numbered old
    · have numbered := h.inflight_numbered (flying m new)
      exact ⟨i, (h.wf i m numbered).proposer, numbered⟩
  refine ⟨?_, ?_, ?_⟩
  · rw [same.numbered, same.cfg, id]
    exact fun m member => (h.wf j m member).proposer
  · rw [recordAll_handled, same.numbered, same.cfg, id]
    intro m member mine
    obtain ⟨l, proposer, numbered⟩ := origin m member
    exact number_inj (proposer.symm.trans mine) ▸ numbered
  · rw [recordAll_handled, same.numbered]
    intro m member m' numbered' equal
    obtain ⟨l, -, numbered⟩ := origin m member
    exact (h.unique numbered numbered' equal).2

theorem SubmissionInv.deliver (h : SubmissionInv d s) (flow : FlowInv hash preload s)
    (control : ControlInv d s) {i j : NodeId} (tsc : Nat → Nat) {msgs : List BandleMessage}
    (flying : ∀ m ∈ msgs, m ∈ inflight s i j) :
    ∃ batches clients noops done,
      Submitted d j ((recordAll (s.node j) msgs).advanceExecuteLocked hash tsc) (s.client j)
        (s.input j) batches clients noops done := by
  obtain ⟨batches, clients, noops, done, old⟩ := h j
  obtain ⟨done', ledger⟩ : ∃ done', Ledger ((recordAll (s.node j) msgs).advanceExecuteLocked hash tsc)
      clients noops done' :=
    (old.ledger.recordAll msgs).advance (flow.recorded flying) (flow.own control flying)
  refine ⟨batches, clients, noops, done', { old with ledger, errors := ?_ }⟩
  rw [advance_errorOps, recordAll_acct]
  exact old.errors

/-! ### Steps -/

/-- A step of the client thread that numbers nothing. -/
theorem Submitted.move (h : Submitted d i n pc input batches clients noops done)
    (ledger : Ledger n' clients noops done) (errors : n'.acct.errorOps = n.acct.errorOps)
    (unnumbered : Client.unnumbered pc' = Client.unnumbered pc)
    (exhausted : Client.submitting pc' = false → Client.submitting pc = false ∨ input = []) :
    Submitted d i n' pc' input batches clients noops done where
  ledger := ledger
  consumed := h.consumed
  carried := by rw [unnumbered]; exact h.carried
  errors := errors.trans h.errors
  exhausted finished := (exhausted finished).elim h.exhausted id

/-- `submit_borrowed_batch` takes the next batch. -/
theorem Submitted.submit {batch : List BorrowedRequest} {later : List (List BorrowedRequest)}
    (h : Submitted d i n .replay (batch :: later) batches clients noops done)
    (bufs : Nat → Mem) (cap : Nat) :
    Submitted d i (buildProposals bufs batch (n, [])).1
      (nextChunk cap (buildProposals bufs batch (n, [])).2) later (batches ++ [batch]) clients noops
      done where
  ledger := by
    rw [buildProposals_eq]
    exact h.ledger.refused _
  consumed := by rw [h.consumed, List.append_assoc]; rfl
  carried := by
    have old := h.carried
    simp only [Client.unnumbered, List.append_nil] at old
    rw [unnumbered_nextChunk, buildProposals_eq, List.flatten_append, validRequests_append]
    simp only [List.nil_append, List.flatten_singleton]
    exact List.rel_append old (carries_proposalsOf _ _ _ _)
  errors := by
    have old := h.errors
    rw [buildProposals_eq, List.flatten_append, invalidCount_append, List.flatten_singleton]
    simp only
    omega
  exhausted finished := by
    rw [submitting_nextChunk] at finished
    cases finished

theorem numberChunk_errorOps (n : Bandle) (chunk : List BandleMessage) :
    (numberChunk tsc n chunk).1.acct.errorOps = n.acct.errorOps := by
  induction chunk generalizing n with
  | nil => rfl
  | cons p rest ih => exact ih _

/-- No-ops start after the input is done. -/
theorem Submitted.no_noops (h : Submitted d i n pc input batches clients noops done)
    (input_open : n.inputDone = false) : noops = [] := by
  by_contra some
  have closed := h.ledger.quiet some
  rw [input_open] at closed
  cases closed

/-- The admission critical section. -/
theorem Submitted.admission {cap : Nat} {chunk rest : List BandleMessage}
    (h : Submitted d i n (.admission cap chunk rest) input batches clients noops done)
    (input_open : n.inputDone = false)
    (room : n.acct.pendingCount + chunk.length ≤ kCompletionSlots)
    (ahead : n.executeNext ≤ n.nextSeq) :
    Submitted d i (numberChunk tsc n chunk).1 (.broadcast cap (numberChunk tsc n chunk).2 rest)
      input batches (clients ++ (numberChunk tsc n chunk).2) noops done := by
  obtain rfl := h.no_noops input_open
  refine ⟨h.ledger.numberChunk chunk room ahead, h.consumed, ?_,
    (numberChunk_errorOps n chunk).trans h.errors, fun finished => by cases finished⟩
  have carried := h.carried
  simp only [Client.unnumbered] at carried ⊢
  rw [List.append_assoc]
  exact forall₂_replace carried fun reqs same => carries_numberChunk n same

/-- Every open request has a number that is not executed yet, so a bounded lead leaves
room in `pending_`. -/
theorem Submitted.room {cap count : Nat} {chunk rest : List BandleMessage}
    (h : Submitted d i n (.admission cap chunk rest) input batches clients noops done)
    (input_open : n.inputDone = false) (ahead : n.executeNext ≤ n.nextSeq)
    (lead : n.nextSeq + 3 * count < n.executeNext + pendingLead + 3) :
    n.acct.pendingCount + count ≤ kCompletionSlots := by
  have lap : kCompletionSlots = 65536 := rfl
  have bound : pendingLead = 196608 := rfl
  obtain rfl := h.no_noops input_open
  have next := h.ledger.next
  rw [h.ledger.numbered, List.append_nil] at next
  have opened := h.ledger.pendingCount
  by_cases all : done = clients.length
  · omega
  · have inside : done < clients.length := Nat.lt_of_le_of_ne h.ledger.done_le all
    have oldest := h.ledger.progress done inside
    omega

theorem SubmissionInv.setClient (h : SubmissionInv d s) {k : NodeId} {c : ClientPc}
    (unnumbered : Client.unnumbered c = Client.unnumbered (s.client k))
    (exhausted : Client.submitting c = false → Client.submitting (s.client k) = false) :
    SubmissionInv d (s.setClient k c) := by
  obtain ⟨batches, clients, noops, done, old⟩ := h k
  exact EachNode.setClient h ⟨batches, clients, noops, done,
    old.move old.ledger rfl unnumbered fun finished => Or.inl (exhausted finished)⟩

theorem SubmissionInv.initial (d : Deployment) : SubmissionInv d (Cluster.initial d) := fun _ =>
  ⟨[], [], [], 0, .started _ _, rfl, .nil, rfl, fun finished => by cases finished⟩

/-- Every firing keeps the submission invariant if an admission leaves no more requests
open than `pending_` has slots. -/
theorem SubmissionInv.step {a : Action} (h : SubmissionInv d s) (flow : FlowInv hash preload s)
    (control : ControlInv d s) (room : AdmissionRoom s a) (fires : Fires hash s a t) :
    SubmissionInv d t := by
  cases fires with
  | @submit i bufs batch later pc todo =>
    obtain ⟨batches, clients, noops, done, old⟩ := h i
    rw [pc, todo] at old
    exact EachNode.submit h ⟨_, _, _, _, old.submit bufs _⟩
  | @admission i tsc cap chunk rest pc fits =>
    obtain ⟨batches, clients, noops, done, old⟩ := h i
    have node := control.node i
    rw [pc] at old node
    simp only [AdmissionRoom, pc, Client.admitting] at room
    exact EachNode.set h ⟨_, _, _, _, old.admission node.phase room (flow.next_le i i)⟩
  | ready pc running room => exact h.setClient (by rw [pc]; rfl) fun finished => by cases finished
  | abandon pc stopped => exact h.setClient (by rw [pc]; rfl) fun finished => by cases finished
  | @publish i cap chunk rest peer peers pc =>
    have ring : SubmissionInv d (s.setRing i peer (s.ring i peer ++ chunk)) := h
    refine ring.setClient ?_ fun finished => by cases finished
    change rest = Client.unnumbered (s.client i)
    rw [pc]
    rfl
  | published pc => exact h.setClient (by rw [pc]; rfl) fun finished => by cases finished
  | @selfDeliver i tsc cap chunk rest pc =>
    have flying : ∀ m ∈ chunk, m ∈ inflight s i i := by
      intro m member
      simp [inflight, pc, Client.unsent, member]
    obtain ⟨batches, clients, noops, done, moved⟩ :=
      h.deliver flow control tsc flying
    rw [pc] at moved
    rw [foldl_handleProposal]
    refine EachNode.set h ⟨batches, clients, noops, done,
      moved.move moved.ledger rfl (unnumbered_nextChunk cap rest) fun finished => ?_⟩
    rw [submitting_nextChunk] at finished
    cases finished
  | @markInputDone i pc todo =>
    obtain ⟨batches, clients, noops, done, old⟩ := h i
    rw [pc] at old
    exact EachNode.set h ⟨batches, clients, noops, done,
      old.move (old.ledger.frame rfl rfl (fun _ => rfl) rfl rfl rfl) rfl rfl fun _ => Or.inr todo⟩
  | @pendingDone i pc done =>
    exact h.setClient (k := i) (c := .barrier) (by rw [pc]; rfl) fun _ => by rw [pc]; rfl
  | @stop i pc finished =>
    obtain ⟨batches, clients, noops, done, old⟩ := h i
    rw [pc] at old
    exact EachNode.set h ⟨batches, clients, noops, done,
      old.move (old.ledger.frame rfl rfl id rfl rfl rfl) rfl rfl fun _ => Or.inl rfl⟩
  | join pc exited receivers =>
    exact h.setClient (by rw [pc]; rfl) fun _ => by rw [pc]; rfl
  | drain peer alive idle single some published => exact h
  | @handle j src tsc batch =>
    have flying := chunk_inflight s j src
    have moved := h.deliver flow control tsc flying
    rw [← handleChunk_proposals _ _ (fun m member => flow.proposals src j m (flying m member))
      (chunk_ne_nil batch)] at moved
    exact EachNode.setNode h moved
  | recvExit peer stopped idle => exact h
  | noopCheck pc running due => exact h
  | noopRead pc => exact h
  | @noopNumber i now p pc =>
    obtain ⟨batches, clients, noops, done, old⟩ := h i
    have node := control.node i
    rw [pc] at node
    have filled : p = (s.node i).noopProposal := node.proposer
    rw [filled]
    exact EachNode.setNode h ⟨batches, clients, _, done,
      { old with ledger := old.ledger.numberNoop now (node.noops rfl) }⟩
  | noopSend pc running room => exact h
  | noopSent pc => exact h
  | noopDrop pc stopped => exact h
  | @noopDeliver i tsc p pc =>
    have flying : ∀ m ∈ [p], m ∈ inflight s i i := by
      intro m member
      rw [List.mem_singleton.mp member]
      simp [inflight, pc, Proposer.unsent]
    exact EachNode.setNode h (h.deliver flow control tsc flying)
  | proposerExit pc stopped => exact h

/-! ### Requests of a node -/

/-- The client requests of a node that pass the operation check, in order. -/
def requestsOf (d : Deployment) (i : NodeId) : List BorrowedRequest :=
  validRequests (d.input i).flatten

/-- The proposals a node has numbered for client requests, in order. -/
def clientNumbered (n : Bandle) : List BandleMessage :=
  n.hist.numbered.filter fun m => m.body.clientReqId ≠ 0

theorem Ledger.clientNumbered_eq (h : Ledger n clients noops done) :
    clientNumbered n = clients := by
  rw [clientNumbered, h.numbered, List.filter_append]
  have all : clients.filter (fun m => m.body.clientReqId ≠ 0) = clients := by
    rw [List.filter_eq_self]
    intro m member
    obtain ⟨k, found⟩ := List.getElem?_of_mem member
    simp only [h.ids k m found, ne_eq, decide_eq_true_eq]
    exact requestId_ne_zero _ _
  have none : noops.filter (fun m => m.body.clientReqId ≠ 0) = [] := by
    rw [List.filter_eq_nil_iff]
    intro m member
    simp [h.bare m member]
  rw [all, none, List.append_nil]

/-- The proposal at a position carries the request at that position. -/
theorem Submitted.request (h : Submitted d i n pc input batches clients noops done) {k : Nat}
    {m : BandleMessage} (found : clients[k]? = some m) :
    ∃ r, (requestsOf d i)[k]? = some r ∧ Carries r m := by
  have inside := (List.getElem?_eq_some_iff.mp found).1
  have length := h.carried.length_eq
  rw [List.length_append] at length
  have submitted : k < (validRequests batches.flatten).length := by omega
  have carries := (List.forall₂_iff_get.mp h.carried).2 k submitted
    (by rw [List.length_append]; omega)
  refine ⟨(validRequests batches.flatten)[k], ?_, ?_⟩
  · rw [requestsOf, h.consumed, List.flatten_append, validRequests_append,
      List.getElem?_append_left submitted, List.getElem?_eq_getElem]
  · simp only [List.get_eq_getElem, List.getElem_append_left inside] at carries
    rw [List.getElem?_eq_getElem inside] at found
    rw [← Option.some.inj found]
    exact carries

/-! ### Taken slots -/

theorem advance_overwritten (n : Bandle) :
    (n.advanceExecuteLocked hash tsc).acct.overwritten = n.acct.overwritten := by
  refine advance_invariant (P := fun m => m.acct.overwritten = n.acct.overwritten) n
    (fun _ _ same => same) ?_ rfl
  intro m flag same ready
  have kept : (completeOwn tsc m.cfg.nodeId m.executeNext (m.log (slotOf m.executeNext))
      (m.acct, flag)).1.overwritten = m.acct.overwritten := by
    unfold completeOwn completePending
    dsimp only
    split_ifs <;> rfl
  exact kept.trans same

/-- The record of taken slots only grows. -/
theorem Fires.overwritten_mono {a : Action} (flow : FlowInv hash preload s) (fires : Fires hash s a t)
    (j : NodeId) : (s.node j).acct.overwritten <+: (t.node j).acct.overwritten := by
  have moved : ∀ (k : NodeId) (n : Bandle), (s.node k).acct.overwritten <+: n.acct.overwritten →
      (s.node j).acct.overwritten <+: ((s.setNode k n).node j).acct.overwritten := by
    intro k n grown
    by_cases here : j = k
    · subst j
      simpa only [Cluster.setNode, Function.update_self] using grown
    · simp only [Cluster.setNode, Function.update_of_ne here, List.prefix_rfl]
  have delivered : ∀ (k : NodeId) (tsc : Nat → Nat) (msgs : List BandleMessage),
      (s.node k).acct.overwritten <+:
        ((recordAll (s.node k) msgs).advanceExecuteLocked hash tsc).acct.overwritten := by
    intro k tsc msgs
    rw [advance_overwritten, recordAll_acct]
  cases fires with
  | @submit i bufs batch later pc todo =>
    refine moved i _ ?_
    rw [buildProposals_eq]
  | @admission i tsc cap chunk rest pc fits => exact moved i _ (numberChunk_overwritten_mono _ _ _)
  | @selfDeliver i tsc cap chunk rest pc => exact moved i _ (delivered i tsc chunk)
  | @markInputDone i pc todo => exact moved i _ List.prefix_rfl
  | @stop i pc finished => exact moved i _ List.prefix_rfl
  | @handle k src tsc batch =>
    refine moved k _ ?_
    rw [handleChunk_proposals _ _ (fun m member => flow.proposals src k m
      (chunk_inflight s k src m member)) (chunk_ne_nil batch)]
    exact delivered k tsc _
  | @noopNumber i now p pc => exact moved i _ List.prefix_rfl
  | @noopDeliver i tsc p pc => exact moved i _ (delivered i tsc [p])
  | _ => exact List.prefix_rfl

/-- Without room an admission takes a slot that is still open. -/
theorem SubmissionInv.taken {i : NodeId} (h : SubmissionInv d s) (flow : FlowInv hash preload s)
    (control : ControlInv d s) (fires : Fires hash s (.admission i tsc) t)
    (crowded : ¬ AdmissionRoom s (.admission i tsc)) : (t.node i).acct.overwritten ≠ [] := by
  cases fires with
  | @admission _ _ cap chunk rest pc fits =>
    obtain ⟨batches, clients, noops, done, old⟩ := h i
    have node := control.node i
    rw [pc] at old node
    obtain rfl := old.no_noops node.phase
    simp only [AdmissionRoom, pc, Client.admitting, Nat.not_le] at crowded
    simp only [Cluster.setNode, Cluster.setClient, Function.update_self]
    exact old.ledger.crowded tsc chunk crowded (flow.next_le i i)

/-! ### Runs -/

theorem submission_under {ok : Cluster → Action → Prop} (room : ∀ s a, ok s a → AdmissionRoom s a)
    {s : Cluster} (reached : (clusterSystem hash d).ReachableUnder ok s) : SubmissionInv d s :=
  cluster_invariant_under (.initial d) (fun _ _ _ before holds allowed fires =>
    holds.step (flow_reachable before) (control_reachable before) (room _ _ allowed) fires) reached

/-- Settings under which every admission that passes the window test has room. -/
theorem SubmissionInv.room {a : Action} (small : ∀ i, leadBound (d.settings i) ≤ pendingLead)
    (h : SubmissionInv d s) (flow : FlowInv hash preload s) (control : ControlInv d s)
    (fires : Fires hash s a t) : AdmissionRoom s a := by
  cases fires with
  | @admission i tsc cap chunk rest pc fits =>
    obtain ⟨batches, clients, noops, done, old⟩ := h i
    have node := control.node i
    rw [pc] at old node
    obtain ⟨-, le, some, short⟩ := node.client
    have lead := lead_of_admits node.settings (List.length_pos_iff.mpr some)
      (Nat.le_trans short le) fits
    have bound := small i
    simp only [AdmissionRoom, pc, Client.admitting]
    exact old.room node.phase (flow.next_le i i) (by omega)
  | _ => trivial

theorem submission_reachable (small : ∀ i, leadBound (d.settings i) ≤ pendingLead) {s : Cluster}
    (reached : (clusterSystem hash d).Reachable s) : SubmissionInv d s :=
  cluster_invariant (.initial d) (fun _ _ _ before holds fires =>
    have flow := flow_reachable before
    have control := control_reachable before
    holds.step flow control (holds.room small flow control fires) fires) reached

end BandleCxl.Invariant
