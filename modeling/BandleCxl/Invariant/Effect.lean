import BandleCxl.Invariant.Control

/-!
What a firing does to the replication protocol. Seen from the proposals in
flight, every action of every thread is one of three things: nothing (at most a
stopped node loses proposals it had not sent), a node numbers new proposals, or
a node handles the oldest proposals on their way to it. The invariants of the
protocol are proved against these three effects.
-/
namespace BandleCxl.Invariant
open Library Source Bandle

/-- Numbered proposals of the client's chunk that node `j` has not been sent; for
`j` the node itself, that it has not delivered to itself. -/
def Client.unsent (i : NodeId) (pc : ClientPc) (j : NodeId) : List BandleMessage :=
  match pc with
  | .broadcast _ chunk _ => chunk
  | .publish _ chunk _ peers => if j ∈ peers ∨ j = i then chunk else []
  | .deliver _ chunk _ => if j = i then chunk else []
  | _ => []

def Proposer.unsent (i : NodeId) (pc : ProposerPc) (j : NodeId) : List BandleMessage :=
  match pc with
  | .send p peers => if j ∈ peers ∨ j = i then [p] else []
  | .deliver p => if j = i then [p] else []
  | _ => []

/-- Proposals of `i` that `j` has not handled, oldest first. -/
def inflight (s : Cluster) (i j : NodeId) : List BandleMessage :=
  s.recv j i ++ s.ring i j ++ Client.unsent i (s.client i) j ++ Proposer.unsent i (s.proposer i) j

/-- The members that the protocol invariants read. -/
structure SameProtocol (n n' : Bandle) : Prop where
  cfg : n'.cfg = n.cfg
  log : n'.log = n.log
  payloads : n'.logPayloads = n.logPayloads
  next : n'.executeNext = n.executeNext
  kv : n'.kv = n.kv
  handled : n'.hist.handled = n.hist.handled
  executed : n'.hist.executed = n.hist.executed
  resetLive : n'.hist.resetLive = n.hist.resetLive
  numbered : n'.hist.numbered = n.hist.numbered
  nextSeq : n'.nextSeq = n.nextSeq
  completed : n'.acct.completed = n.acct.completed
  running : n'.running = true → n.running = true

theorem SameProtocol.refl (n : Bandle) : SameProtocol n n :=
  ⟨rfl, rfl, rfl, rfl, rfl, rfl, rfl, rfl, rfl, rfl, rfl, id⟩

inductive Effect (hash : Bytes → Nat) (s t : Cluster) : Prop where
  | quiet (nodes : ∀ k, SameProtocol (s.node k) (t.node k))
      (flow : ∀ i j, (inflight t i j).Sublist (inflight s i j))
      (kept : ∀ i j, (s.node i).running = true → inflight t i j = inflight s i j)
  | number (i : NodeId) (msgs : List BandleMessage) (numbers : Numbers (s.node i) (t.node i) msgs)
      (wf : ∀ m ∈ msgs, WellFormed (number i) m)
      (others : ∀ k, k ≠ i → t.node k = s.node k)
      (flow : ∀ j, inflight t i j = inflight s i j ++ msgs)
      (same : ∀ k j, k ≠ i → inflight t k j = inflight s k j)
  | deliver (i j : NodeId) (tsc : Nat → Nat) (msgs : List BandleMessage)
      (node : t.node j = (recordAll (s.node j) msgs).advanceExecuteLocked hash tsc)
      (others : ∀ k, k ≠ j → t.node k = s.node k)
      (flow : inflight s i j = msgs ++ inflight t i j)
      (same : ∀ k l, k ≠ i ∨ l ≠ j → inflight t k l = inflight s k l)

variable {hash : Bytes → Nat} {d : Deployment}

/-- The effect as one node sees it: nothing, new numbers of its own, or proposals handled. -/
theorem Effect.at_node {s t : Cluster} (effect : Effect hash s t) (k : NodeId) :
    SameProtocol (s.node k) (t.node k) ∨ (∃ msgs, Numbers (s.node k) (t.node k) msgs) ∨
      ∃ i tsc msgs, (∀ m ∈ msgs, m ∈ inflight s i k) ∧
        t.node k = (recordAll (s.node k) msgs).advanceExecuteLocked hash tsc := by
  cases effect with
  | quiet nodes flow kept => exact Or.inl (nodes k)
  | number i msgs numbers wf others flow same =>
    by_cases moved : k = i
    · subst k
      exact Or.inr (Or.inl ⟨msgs, numbers⟩)
    · rw [others k moved]
      exact Or.inl (.refl _)
  | deliver i j tsc msgs node others flow same =>
    by_cases moved : k = j
    · subst k
      refine Or.inr (Or.inr ⟨i, tsc, msgs, ?_, node⟩)
      intro m member
      rw [flow]
      exact List.mem_append_left _ member
    · rw [others k moved]
      exact Or.inl (.refl _)

/-! ### In-flight proposals under the state updates -/

theorem inflight_setClient (s : Cluster) (k i j : NodeId) (pc : ClientPc) :
    inflight (s.setClient k pc) i j =
      if i = k then s.recv j i ++ s.ring i j ++ Client.unsent i pc j ++
        Proposer.unsent i (s.proposer i) j
      else inflight s i j := by
  by_cases here : i = k
  · subst i
    simp [inflight, Cluster.setClient]
  · simp [inflight, Cluster.setClient, here]

theorem inflight_setProposer (s : Cluster) (k i j : NodeId) (pc : ProposerPc) :
    inflight (s.setProposer k pc) i j =
      if i = k then s.recv j i ++ s.ring i j ++ Client.unsent i (s.client i) j ++
        Proposer.unsent i pc j
      else inflight s i j := by
  by_cases here : i = k
  · subst i
    simp [inflight, Cluster.setProposer]
  · simp [inflight, Cluster.setProposer, here]

/-- A new program point with the same unsent proposals. -/
theorem inflight_client_same {s : Cluster} {k : NodeId} {c : ClientPc}
    (same : ∀ j, Client.unsent k c j = Client.unsent k (s.client k) j) (i j : NodeId) :
    inflight (s.setClient k c) i j = inflight s i j := by
  rw [inflight_setClient]
  split
  · next here =>
    subst i
    rw [same j]
    rfl
  · rfl

theorem inflight_proposer_same {s : Cluster} {k : NodeId} {pc : ProposerPc}
    (same : ∀ j, Proposer.unsent k pc j = Proposer.unsent k (s.proposer k) j) (i j : NodeId) :
    inflight (s.setProposer k pc) i j = inflight s i j := by
  rw [inflight_setProposer]
  split
  · next here =>
    subst i
    rw [same j]
    rfl
  · rfl

theorem setNode_same {s : Cluster} {k : NodeId} {n : Bandle} (same : SameProtocol (s.node k) n)
    (l : NodeId) : SameProtocol (s.node l) ((s.setNode k n).node l) := by
  by_cases here : l = k
  · subst l
    simpa only [Cluster.setNode, Function.update_self] using same
  · simp only [Cluster.setNode, Function.update_of_ne here]
    exact .refl _

/-- Nothing moved. -/
theorem Effect.still {s t : Cluster} (nodes : ∀ k, SameProtocol (s.node k) (t.node k))
    (flow : ∀ i j, inflight t i j = inflight s i j) : Effect hash s t :=
  .quiet nodes (fun i j => by rw [flow]) fun i j _ => flow i j

theorem unsent_nextChunk (i j : NodeId) (cap : Nat) (rest : List BandleMessage) :
    Client.unsent i (nextChunk cap rest) j = [] := by
  unfold nextChunk
  split <;> rfl

theorem Client.unsent_of_done {i j : NodeId} {pc : ClientPc} (done : Client.submitting pc = false) :
    Client.unsent i pc j = [] := by
  cases pc <;> simp_all [Client.submitting, Client.unsent]

theorem Proposer.unsent_of_idle {i j : NodeId} {pc : ProposerPc} (idle : Proposer.active pc = false) :
    Proposer.unsent i pc j = [] := by
  cases pc <;> simp_all [Proposer.active, Proposer.unsent]

/-- While a no-op is under way the client has nothing unsent. -/
theorem NodeControl.client_done {cfg : Settings} {i j : NodeId} {n : Bandle} {c : ClientPc}
    {p : ProposerPc} (h : NodeControl cfg i n c p) (active : Proposer.active p = true) :
    Client.unsent i c j = [] := by
  apply Client.unsent_of_done
  have phase := h.phase
  rw [h.noops active] at phase
  simpa using phase.symm

theorem NodeControl.proposer_unsent {cfg : Settings} {i j : NodeId} {n : Bandle} {c : ClientPc}
    {p : ProposerPc} (h : NodeControl cfg i n c p) (submitting : Client.submitting c = true) :
    Proposer.unsent i p j = [] :=
  Proposer.unsent_of_idle (h.proposer_idle submitting)

/-! ### Classification -/

theorem effect_admission {s : Cluster} {i : NodeId} {cap : Nat} {chunk rest : List BandleMessage}
    (tsc : Nat → Nat) (h : ControlInv d s) (pc : s.client i = .admission cap chunk rest) :
    Effect hash s ((s.setNode i (numberChunk tsc (s.node i) chunk).1).setClient i
      (.broadcast cap (numberChunk tsc (s.node i) chunk).2 rest)) := by
  have old := h.node i
  rw [pc] at old
  have idle : ∀ j, Proposer.unsent i (s.proposer i) j = [] := fun j => old.proposer_unsent rfl
  refine .number i (numberChunk tsc (s.node i) chunk).2 ?_ ?_ ?_ ?_ ?_
  · simpa only [Cluster.setNode, Cluster.setClient, Function.update_self] using
      Numbers.chunk (s.node i) chunk
  · exact WellFormed.numberChunk _ fun m member => old.built m (List.mem_append_left _ member)
  · intro k other
    simp only [Cluster.setNode, Cluster.setClient, Function.update_of_ne other]
  · intro j
    rw [inflight_setClient, if_pos rfl]
    simp [inflight, Cluster.setNode, pc, Client.unsent, idle]
  · intro k j other
    rw [inflight_setClient, if_neg other]
    rfl

/-- A peer that has been served is not among the rest. -/
theorem not_served_again {i peer : NodeId} {peers : List NodeId} (nodup : (peer :: peers).Nodup)
    (self : i ∉ peer :: peers) : ¬(peer ∈ peers ∨ peer = i) := by
  rintro (again | own)
  · exact (List.nodup_cons.mp nodup).1 again
  · exact self (by simp [own])

theorem effect_publish {s : Cluster} {i peer : NodeId} {cap : Nat} {chunk rest : List BandleMessage}
    {peers : List NodeId} (h : ControlInv d s)
    (pc : s.client i = .publish cap chunk rest (peer :: peers)) :
    Effect hash s ((s.setRing i peer (s.ring i peer ++ chunk)).setClient i
      (.publish cap chunk rest peers)) := by
  have old := h.node i
  rw [pc] at old
  obtain ⟨-, -, nodup, self⟩ := old.client
  have absent := not_served_again nodup self
  have idle : ∀ j, Proposer.unsent i (s.proposer i) j = [] := fun j => old.proposer_unsent rfl
  refine .still (fun _ => .refl _) fun k j => ?_
  rw [inflight_setClient]
  split
  · next here =>
    subst k
    by_cases sent : j = peer
    · subst j
      simp [inflight, Cluster.setRing, pc, Client.unsent, absent, idle]
    · simp [inflight, Cluster.setRing, pc, Client.unsent, sent]
  · next other => simp [inflight, Cluster.setRing, other]

theorem effect_selfDeliver {s : Cluster} {i : NodeId} {cap : Nat} {chunk rest : List BandleMessage}
    (tsc : Nat → Nat) (h : ControlInv d s) (pc : s.client i = .deliver cap chunk rest) :
    Effect hash s ((s.setNode i ((chunk.foldl (fun n p => n.handleProposalLocked hash tsc p false)
      (s.node i)).advanceExecuteLocked hash tsc)).setClient i (nextChunk cap rest)) := by
  have old := h.node i
  rw [pc] at old
  have idle : ∀ j, Proposer.unsent i (s.proposer i) j = [] := fun j => old.proposer_unsent rfl
  obtain ⟨noRing, noRecv⟩ := h.loopback i
  refine .deliver i i tsc chunk ?_ ?_ ?_ ?_
  · simp only [Cluster.setNode, Cluster.setClient, Function.update_self, foldl_handleProposal]
  · intro k other
    simp only [Cluster.setNode, Cluster.setClient, Function.update_of_ne other]
  · rw [inflight_setClient, if_pos rfl, unsent_nextChunk]
    simp [inflight, Cluster.setNode, pc, Client.unsent, noRing, noRecv, idle]
  · intro k l other
    rw [inflight_setClient]
    split
    · next here =>
      subst k
      have apart : l ≠ i := by simpa using other
      rw [unsent_nextChunk]
      simp [inflight, Cluster.setNode, pc, Client.unsent, apart]
    · rfl

theorem effect_drain {s : Cluster} {j src : NodeId} (count : Nat) (idle : s.recv j src = []) :
    Effect hash s ((s.setRecv j src ((s.ring src j).take count)).setRing src j
      ((s.ring src j).drop count)) := by
  refine .still (fun _ => .refl _) fun i l => ?_
  by_cases at_ : l = j
  · subst l
    by_cases from_ : i = src
    · subst i
      simp [inflight, Cluster.setRing, Cluster.setRecv, idle]
    · simp [inflight, Cluster.setRing, Cluster.setRecv, from_]
  · by_cases from_ : i = src
    · subst i
      simp [inflight, Cluster.setRing, Cluster.setRecv, at_]
    · simp [inflight, Cluster.setRing, Cluster.setRecv, at_, from_]

/-- A chunk of a receiver's batch is in flight from the ring's writer. -/
theorem chunk_inflight (s : Cluster) (j src : NodeId) :
    ∀ m ∈ (s.recv j src).take kHandleChunk, m ∈ inflight s src j := by
  intro m member
  simp only [inflight, List.append_assoc]
  exact List.mem_append_left _ (List.mem_of_mem_take member)

theorem chunk_ne_nil {msgs : List BandleMessage} (batch : msgs ≠ []) :
    msgs.take kHandleChunk ≠ [] := by
  intro empty
  rcases List.take_eq_nil_iff.mp empty with zero | none
  · exact absurd zero (by decide)
  · exact batch none

theorem effect_handle {s : Cluster} {j src : NodeId} (tsc : Nat → Nat) (batch : s.recv j src ≠ [])
    (proposals : ∀ m ∈ inflight s src j, m.type = .proposal) :
    Effect hash s ((s.setNode j ((s.node j).handleChunk hash tsc
      ((s.recv j src).take kHandleChunk))).setRecv j src ((s.recv j src).drop kHandleChunk)) := by
  have types : ∀ m ∈ (s.recv j src).take kHandleChunk, m.type = .proposal := by
    intro m member
    exact proposals m (chunk_inflight s j src m member)
  refine .deliver src j tsc ((s.recv j src).take kHandleChunk) ?_ ?_ ?_ ?_
  · simp only [Cluster.setNode, Cluster.setRecv, Function.update_self]
    exact handleChunk_proposals _ _ types (chunk_ne_nil batch)
  · intro k other
    simp only [Cluster.setNode, Cluster.setRecv, Function.update_of_ne other]
  · have split := List.take_append_drop kHandleChunk (s.recv j src)
    simp only [inflight, Cluster.setNode, Cluster.setRecv, Function.update_self]
    rw [← List.append_assoc, ← List.append_assoc, ← List.append_assoc, split]
  · intro k l other
    by_cases at_ : l = j
    · subst l
      have from_ : k ≠ src := by simpa using other
      simp [inflight, Cluster.setNode, Cluster.setRecv, from_]
    · simp [inflight, Cluster.setNode, Cluster.setRecv, at_]

theorem effect_noopNumber {s : Cluster} {i : NodeId} {p : BandleMessage} (now : Nat)
    (h : ControlInv d s) (pc : s.proposer i = .read p) :
    Effect hash s ((s.setNode i ((s.node i).numberNoop now p)).setProposer i
      (.send p (peersOf i))) := by
  have old := h.node i
  rw [pc] at old
  have filled : p = (s.node i).noopProposal := old.proposer
  have id : (s.node i).cfg.nodeId = number i := by rw [old.settings, d.ids i]
  have quiet : ∀ j, Client.unsent i (s.client i) j = [] := fun j => old.client_done rfl
  have everyone : ∀ j, j ∈ peersOf i ∨ j = i := by
    intro j
    rw [mem_peersOf]
    exact (em (j = i)).symm
  refine .number i [p] ?_ ?_ ?_ ?_ ?_
  · simp only [Cluster.setNode, Cluster.setProposer, Function.update_self, filled]
    exact .noop _ now
  · intro m member
    rw [List.mem_singleton.mp member, filled, ← id]
    exact .noop _
  · intro k other
    simp only [Cluster.setNode, Cluster.setProposer, Function.update_of_ne other]
  · intro j
    rw [inflight_setProposer, if_pos rfl]
    simp [inflight, Cluster.setNode, pc, Proposer.unsent, quiet, everyone j]
  · intro k j other
    rw [inflight_setProposer, if_neg other]
    rfl

theorem effect_noopSend {s : Cluster} {i peer : NodeId} {p : BandleMessage} {peers : List NodeId}
    (h : ControlInv d s) (pc : s.proposer i = .send p (peer :: peers)) :
    Effect hash s ((s.setRing i peer (s.ring i peer ++ [p])).setProposer i (.send p peers)) := by
  have old := h.node i
  rw [pc] at old
  obtain ⟨nodup, self⟩ := old.proposer
  have absent := not_served_again nodup self
  have quiet : ∀ j, Client.unsent i (s.client i) j = [] := fun j => old.client_done rfl
  refine .still (fun _ => .refl _) fun k j => ?_
  rw [inflight_setProposer]
  split
  · next here =>
    subst k
    by_cases sent : j = peer
    · subst j
      simp [inflight, Cluster.setRing, pc, Proposer.unsent, absent, quiet]
    · simp [inflight, Cluster.setRing, pc, Proposer.unsent, sent]
  · next other => simp [inflight, Cluster.setRing, other]

/-- The only loss: a stopped node gives up sending a no-op. -/
theorem effect_noopDrop {s : Cluster} {i peer : NodeId} {p : BandleMessage} {peers : List NodeId}
    (pc : s.proposer i = .send p (peer :: peers)) (stopped : (s.node i).running = false) :
    Effect hash s (s.setProposer i (.send p peers)) := by
  refine .quiet (fun _ => .refl _) (fun k j => ?_) fun k j running => ?_
  · rw [inflight_setProposer]
    split
    · next here =>
      subst k
      simp only [inflight, pc, Proposer.unsent]
      refine List.Sublist.append_left ?_ _
      by_cases kept : j ∈ peers ∨ j = i
      · have before : j ∈ peer :: peers ∨ j = i := by
          rcases kept with later | own
          · exact Or.inl (List.mem_cons_of_mem _ later)
          · exact Or.inr own
        simp only [kept, before, if_true]
        exact List.Sublist.refl _
      · simp only [kept, if_false]
        exact List.nil_sublist _
    · exact List.Sublist.refl _
  · have other : k ≠ i := by
      intro here
      subst k
      rw [stopped] at running
      cases running
    rw [inflight_setProposer, if_neg other]

theorem effect_noopDeliver {s : Cluster} {i : NodeId} {p : BandleMessage} (tsc : Nat → Nat)
    (h : ControlInv d s) (pc : s.proposer i = .deliver p) :
    Effect hash s ((s.setNode i ((s.node i).handleProposalLocked hash tsc p true)).setProposer i
      .loop) := by
  have old := h.node i
  rw [pc] at old
  have quiet : ∀ j, Client.unsent i (s.client i) j = [] := fun j => old.client_done rfl
  obtain ⟨noRing, noRecv⟩ := h.loopback i
  refine .deliver i i tsc [p] ?_ ?_ ?_ ?_
  · simp only [Cluster.setNode, Cluster.setProposer, Function.update_self]
    rfl
  · intro k other
    simp only [Cluster.setNode, Cluster.setProposer, Function.update_of_ne other]
  · rw [inflight_setProposer, if_pos rfl]
    simp [inflight, Cluster.setNode, pc, Proposer.unsent, noRing, noRecv, quiet]
  · intro k l other
    rw [inflight_setProposer]
    split
    · next here =>
      subst k
      have apart : l ≠ i := by simpa using other
      simp [inflight, Cluster.setNode, pc, Proposer.unsent, apart]
    · rfl

theorem effect_of_fires {s t : Cluster} {a : Action} (h : ControlInv d s)
    (proposals : ∀ i j, ∀ m ∈ inflight s i j, m.type = .proposal) (fires : Fires hash s a t) :
    Effect hash s t := by
  cases fires with
  | @submit i bufs batch later pc todo =>
    refine .still (setNode_same ?_) (inflight_client_same
      (s := s.setNode i (buildProposals bufs batch (s.node i, [])).1) (k := i) fun j => ?_)
    · rw [buildProposals_eq]
      exact ⟨rfl, rfl, rfl, rfl, rfl, rfl, rfl, rfl, rfl, rfl, rfl, id⟩
    · rw [unsent_nextChunk]
      simp [Cluster.setNode, pc, Client.unsent]
  | admission pc fits => exact effect_admission _ h pc
  | @ready i cap chunk rest pc running room =>
    refine .still (fun _ => .refl _) (inflight_client_same fun j => ?_)
    have everyone : j ∈ peersOf i ∨ j = i := by
      rw [mem_peersOf]
      exact (em (j = i)).symm
    simp [pc, Client.unsent, everyone]
  | @abandon i cap chunk rest pc stopped =>
    -- a client inside `broadcast_batch` has not called `stop`
    have late := (h.node i).stopped stopped
    rw [pc] at late
    cases late
  | publish pc => exact effect_publish h pc
  | published pc =>
    exact .still (fun _ => .refl _) (inflight_client_same fun j => by simp [pc, Client.unsent])
  | selfDeliver pc => exact effect_selfDeliver _ h pc
  | markInputDone pc todo =>
    exact .still (setNode_same ⟨rfl, rfl, rfl, rfl, rfl, rfl, rfl, rfl, rfl, rfl, rfl, id⟩)
      (inflight_client_same fun j => by simp [Cluster.setNode, pc, Client.unsent])
  | @pendingDone i pc done =>
    exact .still (fun _ => .refl _)
      (inflight_client_same (s := s) (k := i) (c := .barrier) fun j => by simp [pc, Client.unsent])
  | stop pc finished =>
    refine .still (setNode_same ⟨rfl, rfl, rfl, rfl, rfl, rfl, rfl, rfl, rfl, rfl, rfl, ?_⟩)
      (inflight_client_same fun j => by simp [Cluster.setNode, pc, Client.unsent])
    exact fun on => by cases on
  | join pc exited receivers =>
    exact .still (fun _ => .refl _) (inflight_client_same fun j => by simp [pc, Client.unsent])
  | drain peer alive idle single some published => exact effect_drain _ idle
  | @handle j src tsc batch => exact effect_handle tsc batch (proposals src j)
  | recvExit peer stopped idle => exact .still (fun _ => .refl _) fun _ _ => rfl
  | noopCheck pc running due =>
    exact .still (fun _ => .refl _) (inflight_proposer_same fun j => by simp [pc, Proposer.unsent])
  | noopRead pc =>
    exact .still (fun _ => .refl _) (inflight_proposer_same fun j => by simp [pc, Proposer.unsent])
  | noopNumber pc => exact effect_noopNumber _ h pc
  | noopSend pc running room => exact effect_noopSend h pc
  | noopSent pc =>
    exact .still (fun _ => .refl _) (inflight_proposer_same fun j => by simp [pc, Proposer.unsent])
  | noopDrop pc stopped => exact effect_noopDrop pc stopped
  | noopDeliver pc => exact effect_noopDeliver _ h pc
  | proposerExit pc stopped =>
    exact .still (fun _ => .refl _) (inflight_proposer_same fun j => by simp [pc, Proposer.unsent])

end BandleCxl.Invariant
