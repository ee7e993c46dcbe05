import BandleCxl.Guarantees.Agreement
import BandleCxl.Guarantees.Progress
import BandleCxl.Invariant.Submission
import BandleCxl.Source.Replay

/-!
Exactly-once completion and the replay statistics. The ledger of a node says which
of its own requests are done; here it is read as a statement about the counters, and
at the end of the replay, together with the submission invariant, about the lines of
the dataset.
-/
namespace BandleCxl.Guarantees
open Library Source Bandle Invariant

variable {hash : Bytes → Nat} {d : Deployment} {s : Cluster} {i : NodeId} {n : Bandle}
  {clients noops : List BandleMessage} {done : Nat}

/-! ### The ledger in counts -/

/-- The first `done` of a list, counted. -/
theorem countP_positions {α : Type*} (l : List α) (p : α → Bool) (done : Nat)
    (positions : ∀ (k : Nat) a, l[k]? = some a → (p a = true ↔ done ≤ k)) :
    l.countP p = l.length - done := by
  have first : (l.take done).countP p = 0 := by
    rw [List.countP_eq_zero]
    intro a member
    obtain ⟨k, inside, found⟩ := List.getElem_of_mem member
    rw [List.length_take] at inside
    rw [List.getElem_take] at found
    intro holds
    have := (positions k a (List.getElem?_eq_some_iff.mpr ⟨by omega, found⟩)).mp holds
    omega
  have second : (l.drop done).countP p = (l.drop done).length := by
    rw [List.countP_eq_length]
    intro a member
    obtain ⟨k, inside, found⟩ := List.getElem_of_mem member
    rw [List.length_drop] at inside
    rw [List.getElem_drop] at found
    exact (positions (done + k) a (List.getElem?_eq_some_iff.mpr ⟨by omega, found⟩)).mpr (by omega)
  rw [← List.take_append_drop done l, List.countP_append, first, second]
  simp

theorem readOps_add_writeOps (ledger : Ledger n clients noops done) :
    n.acct.readOps + n.acct.writeOps = n.acct.okOps := by
  rw [ledger.tally.reads, ledger.tally.writes, ledger.tally.ok,
    List.length_eq_countP_add_countP (fun m : BandleMessage => m.body.op == opG)
      (l := clients.take done)]
  have negated : (fun m : BandleMessage => m.body.op != opG) =
      fun m => decide ¬ (m.body.op == opG) = true := by
    funext m
    cases holds : m.body.op == opG <;> simp [bne, holds]
  rw [negated]

/-- The request at position `k` is executed at its own node exactly if it is done. -/
theorem executed_iff_done (flow : FlowInv hash d.preload s)
    (ledger : Ledger (s.node i) clients noops done) {k : Nat} {m : BandleMessage}
    (found : clients[k]? = some m) :
    recordOf m ∈ (s.node i).hist.executed ↔ k < done := by
  have inside := (List.getElem?_eq_some_iff.mp found).1
  have numbered : m ∈ (s.node i).hist.numbered := by
    rw [ledger.numbered]
    exact List.mem_append_left _ (List.mem_of_getElem? found)
  rw [executed_iff flow i numbered, ledger.seqs k m found]
  exact ledger.progress k inside

theorem pendingCount_eq (flow : FlowInv hash d.preload s)
    (ledger : Ledger (s.node i) clients noops done) :
    (s.node i).acct.pendingCount =
      clients.countP fun m => recordOf m ∉ (s.node i).hist.executed := by
  have count := ledger.pendingCount
  rw [countP_positions clients _ done fun k m found => by
    rw [decide_eq_true_iff, executed_iff_done flow ledger found]
    omega]
  omega

/-- Completed numbers are distinct: the requests of a node are three apart. -/
theorem completed_nodup (ledger : Ledger n clients noops done) : n.acct.completed.Nodup := by
  have seqs : clients.map (fun m => m.body.seq) =
      (List.range clients.length).map fun k => n.cfg.nodeId + 3 * k := by
    apply List.ext_getElem
    · simp
    · intro k inside _
      rw [List.length_map] at inside
      simp [ledger.seqs k _ (List.getElem?_eq_getElem inside)]
  have distinct : (clients.map fun m => m.body.seq).Nodup := by
    rw [seqs]
    refine List.nodup_range.map fun k l same => ?_
    have apart : n.cfg.nodeId + 3 * k = n.cfg.nodeId + 3 * l := same
    omega
  rw [ledger.tally.completed, List.map_take]
  exact distinct.sublist (List.take_sublist _ _)

/-- A request is completed once if it is executed at its own node and not before. -/
theorem completed_count (flow : FlowInv hash d.preload s)
    (ledger : Ledger (s.node i) clients noops done) {m : BandleMessage} (member : m ∈ clients) :
    (s.node i).acct.completed.count m.body.seq =
      if recordOf m ∈ (s.node i).hist.executed then 1 else 0 := by
  obtain ⟨k, found⟩ := List.getElem?_of_mem member
  have settled : m.body.seq ∈ (s.node i).acct.completed ↔ k < done := by
    rw [ledger.tally.completed, List.mem_map]
    constructor
    · rintro ⟨m', taken, same⟩
      obtain ⟨l, inside, found'⟩ := List.getElem_of_mem taken
      rw [List.length_take] at inside
      rw [List.getElem_take] at found'
      have first := ledger.seqs k m found
      have second := ledger.seqs l m' (List.getElem?_eq_some_iff.mpr ⟨by omega, found'⟩)
      omega
    · intro early
      refine ⟨m, ?_, rfl⟩
      refine List.mem_of_getElem? (i := k) ?_
      rw [List.getElem?_take_of_lt early]
      exact found
  have executed := executed_iff_done flow ledger found
  split
  · next yes =>
    exact List.count_eq_one_of_mem (completed_nodup ledger) (settled.mpr (executed.mp yes))
  · next no =>
    exact List.count_eq_zero.mpr fun early => no (executed.mpr (settled.mp early))

/-! ### The end of the replay -/

theorem countP_of_forall₂ {α β : Type*} {R : α → β → Prop} {p : α → Bool} {q : β → Bool}
    (agree : ∀ a b, R a b → p a = q b) {l : List α} {l' : List β} (related : List.Forall₂ R l l') :
    l.countP p = l'.countP q := by
  induction related with
  | nil => rfl
  | cons first _ ih => rw [List.countP_cons, List.countP_cons, ih, agree _ _ first]

theorem countP_validRequests (reqs : List BorrowedRequest) (p : UInt8 → Bool)
    (accepted : ∀ op, p op = true → validOp op = true) :
    (validRequests reqs).countP (fun r => p r.op) = reqs.countP fun r => p r.op := by
  rw [validRequests, List.countP_filter]
  congr 1
  funext r
  cases holds : p r.op with
  | false => rfl
  | true => rw [accepted _ holds]; rfl

theorem carries_op {r : BorrowedRequest} {m : BandleMessage} (carries : Carries r m) :
    r.op = m.body.op := by
  obtain ⟨_, _, op, _⟩ := carries
  exact op.symm

/-- A valid operation is a read or a write, not both. -/
theorem isWriteOp_eq {op : UInt8} (valid : validOp op = true) : isWriteOp op = (op != opG) := by
  by_cases read : op = opG
  · subst op
    decide
  · have write : isWriteOp op = true := by simpa [validOp, read] using valid
    simp [write, bne, read]

/-- The statistics once every request of the input is done. -/
theorem statistics_of_idle {pc : ClientPc} {input batches : List (List BorrowedRequest)}
    (h : Submitted d i n pc input batches clients noops done)
    (finished : Client.submitting pc = false) (idle : n.acct.pendingCount = 0) :
    n.acct.totalOps = (d.input i).flatten.length ∧
    n.acct.errorOps = ((d.input i).flatten.countP fun r => !validOp r.op) ∧
    n.acct.readOps = ((d.input i).flatten.countP fun r => r.op == opG) ∧
    n.acct.writeOps = ((d.input i).flatten.countP fun r => isWriteOp r.op) := by
  have input_eq : d.input i = batches := by
    rw [h.consumed, h.exhausted finished, List.append_nil]
  have none : Client.unnumbered pc = [] := by
    cases pc <;> first | rfl | cases finished
  have carried := h.carried
  rw [none, List.append_nil, ← input_eq] at carried
  have tally := h.ledger.tally
  have count := h.ledger.pendingCount
  rw [List.take_of_length_le (by omega)] at tally
  have errors := h.errors
  rw [← input_eq] at errors
  have length : (validRequests (d.input i).flatten).length + invalidCount (d.input i).flatten =
      (d.input i).flatten.length := by
    rw [validRequests, ← List.countP_eq_length_filter, invalidCount,
      List.length_eq_countP_add_countP (fun r : BorrowedRequest => validOp r.op)]
    congr 2
    funext r
    cases validOp r.op <;> rfl
  refine ⟨?_, errors, ?_, ?_⟩
  · rw [tally.total, tally.ok, errors, ← carried.length_eq]
    exact length
  · rw [tally.reads, ← countP_validRequests _ (· == opG) (fun op read => by simp [validOp, read])]
    exact (countP_of_forall₂ (fun r m carries => by rw [carries_op carries]) carried).symm
  · have writes : (validRequests (d.input i).flatten).countP (fun r => isWriteOp r.op) =
        (validRequests (d.input i).flatten).countP fun r => r.op != opG := by
      refine List.countP_congr fun r member => ?_
      rw [isWriteOp_eq (List.mem_filter.mp member).2]
    rw [tally.writes, ← countP_validRequests _ isWriteOp (fun op write => by simp [validOp, write]),
      writes]
    exact (countP_of_forall₂ (fun r m carries => by rw [carries_op carries]) carried).symm

/-- The deployment in which each node replays a dataset. -/
def replaying (d : Deployment) (batchSize : NodeId → Nat) (ahead : NodeId → Nat → Nat → Bool)
    (dataset : NodeId → Bytes) : Deployment :=
  { d with input := fun i => replay (batchSize i) (ahead i) (dataset i) }

theorem countP_accepted (batchSize : Nat) (ahead : Nat → Nat → Bool) (dataset : Bytes)
    (p : UInt8 → Bool) :
    ((replay batchSize ahead dataset).flatten.countP fun r => p r.op) =
      (acceptedLines dataset).countP fun v => p v.op := by
  rw [replay_flatten, List.countP_map]
  rfl

/-- For every dataset, batch size and clock, in every reachable state: the pending
count is the number of own numbered requests that are not executed, an own request
is completed once if it is executed and never otherwise, the counters add up, and the
histograms hold one sample per operation. When `wait_for_all_pending` returns while
the node runs, the counters are the numbers of accepted lines of each kind. -/
theorem exactly_once_accounting (hash : Bytes → Nat) (d : Deployment)
    (windows : ∀ i, effectiveWindow (d.settings i) ≤ 16384) (batchSize : NodeId → Nat)
    (ahead : NodeId → Nat → Nat → Bool) (dataset : NodeId → Bytes) (s : Cluster)
    (reached : (clusterSystem hash (replaying d batchSize ahead dataset)).Reachable s)
    (i : NodeId) :
    ((s.node i).acct.pendingCount =
      (clientNumbered (s.node i)).countP fun m => recordOf m ∉ (s.node i).hist.executed) ∧
    (∀ m ∈ clientNumbered (s.node i), (s.node i).acct.completed.count m.body.seq =
      if recordOf m ∈ (s.node i).hist.executed then 1 else 0) ∧
    (s.node i).acct.readOps + (s.node i).acct.writeOps = (s.node i).acct.okOps ∧
    (s.node i).acct.totalOps = (s.node i).acct.okOps + (s.node i).acct.errorOps ∧
    ((s.node i).acct.readLatency.samples = (s.node i).acct.readOps ∧
      (s.node i).acct.readLatency.total = (s.node i).acct.readOps) ∧
    ((s.node i).acct.writeLatency.samples = (s.node i).acct.writeOps ∧
      (s.node i).acct.writeLatency.total = (s.node i).acct.writeOps) ∧
    ∀ t, (clusterSystem hash (replaying d batchSize ahead dataset)).step s (.pendingDone i) =
        some t → (s.node i).running = true →
      (t.node i).acct.totalOps = (acceptedLines (dataset i)).length ∧
      (t.node i).acct.errorOps = ((acceptedLines (dataset i)).countP fun v => !validOp v.op) ∧
      (t.node i).acct.readOps = ((acceptedLines (dataset i)).countP fun v => v.op == opG) ∧
      (t.node i).acct.writeOps = ((acceptedLines (dataset i)).countP fun v => isWriteOp v.op) := by
  have small : ∀ i, leadBound ((replaying d batchSize ahead dataset).settings i) ≤ pendingLead := by
    intro i
    have window := windows i
    have bound : pendingLead = 196608 := rfl
    change max (effectiveWindow (d.settings i)) 1539 ≤ pendingLead
    omega
  have flow := flow_reachable reached
  obtain ⟨batches, clients, noops, done, submitted⟩ := submission_reachable small reached i
  have ledger := submitted.ledger
  rw [ledger.clientNumbered_eq]
  refine ⟨pendingCount_eq flow ledger, fun m member => completed_count flow ledger member,
    readOps_add_writeOps ledger, ledger.tally.total, ledger.tally.readSamples,
    ledger.tally.writeSamples, fun t stepped running => ?_⟩
  have fires : Fires hash s (.pendingDone i) t := fires_of_step stepped
  cases fires with
  | pendingDone pc returned =>
    have idle := returned.resolve_right (by simp [running])
    rw [pc] at submitted
    obtain ⟨total, errors, reads, writes⟩ := statistics_of_idle submitted rfl idle
    have input : (replaying d batchSize ahead dataset).input i =
      replay (batchSize i) (ahead i) (dataset i) := rfl
    rw [input] at total errors reads writes
    rw [replay_flatten, List.length_map] at total
    rw [countP_accepted _ _ _ (fun op => !validOp op)] at errors
    rw [countP_accepted _ _ _ (· == opG)] at reads
    rw [countP_accepted _ _ _ isWriteOp] at writes
    exact ⟨total, errors, reads, writes⟩

/-- Node 1 replays the line `1,P a:b`, the other nodes an empty dataset. -/
def oneLine (i : NodeId) : Bytes := if i = 0 then [49, 44, 80, 32, 97, 58, 98] else []

def replayOneLine : Deployment :=
  replaying (defaultDeployment fun _ => []) (fun _ => 64) (fun _ _ _ => false) oneLine

theorem exactly_once_oneLine :
    ∃ s t, (clusterSystem List.length replayOneLine).run (Cluster.initial replayOneLine)
        (acknowledge ++ [.markInputDone 0]) = some s ∧
      (clusterSystem List.length replayOneLine).step s (.pendingDone 0) = some t ∧
      (acceptedLines (oneLine 0)).length = 1 ∧
      (t.node 0).acct.totalOps = (acceptedLines (oneLine 0)).length := by
  refine ⟨_, _, rfl, rfl, rfl, ?_⟩
  exact ((exactly_once_accounting List.length (defaultDeployment fun _ => [])
    (fun _ => by change max 192 (3 * 32 + 3) ≤ 16384; decide) (fun _ => 64) (fun _ _ _ => false)
    oneLine _ (.of_run (acknowledge ++ [.markInputDone 0]) (.start rfl) rfl) 0).2.2.2.2.2.2 _ rfl
    rfl).1

end BandleCxl.Guarantees
