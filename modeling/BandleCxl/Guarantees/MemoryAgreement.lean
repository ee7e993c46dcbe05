import BandleCxl.Guarantees.MemoryRefinement
import BandleCxl.Guarantees.Order

/-!
Replica agreement and the order of requests over shared memory: what holds of every run of the
replicas that pass messages through queues holds of those that write and read coherent rings access
by access, as far as it is about what both have of a node.
-/
namespace BandleCxl.Guarantees
open Library Source Invariant Bandle

variable {hash : Bytes → Nat} {d : Deployment} {r : RingShape} {m : MemoryCluster} {c : Cluster}

/-- The record of handled messages and the flag are all in which a node can differ. -/
theorem Shows.same (h : Shows m c) (i : NodeId) :
    (c.node i).executeNext = (m.control.node i).executeNext ∧
      (c.node i).kv = (m.control.node i).kv ∧ (c.node i).acct = (m.control.node i).acct ∧
      (c.node i).hist.executed = (m.control.node i).hist.executed ∧
      (c.node i).hist.numbered = (m.control.node i).hist.numbered := by
  obtain ⟨handled, node⟩ := h.node i
  rw [node]
  exact ⟨rfl, rfl, rfl, rfl, rfl⟩

theorem Shows.clientNumbered (h : Shows m c) (i : NodeId) :
    clientNumbered (c.node i) = clientNumbered (m.control.node i) := by
  rw [Invariant.clientNumbered, Invariant.clientNumbered, (h.same i).2.2.2.2]

/-- In every run over coherent rings of `kBandleRingCapacity` slots there is one log, made of the
proposals that the nodes number, such that at every moment every node has executed its first
`execute_next_ - 1` entries, each once and in order, and its store is their fold over the preloaded
one. Two replicas that got equally far, at whatever moments, hold equal stores. -/
theorem memory_agreement (hash : Bytes → Nat) (d : Deployment) (r : RingShape)
    (coherent : r.coherent = true) (full : r.capacity = kBandleRingCapacity)
    (run : (memorySystem hash d r).Execution) :
    ∃ log : Nat → Option Entry,
      (∀ k i, ∀ p ∈ ((run.state k).control.node i).hist.numbered,
        log p.body.seq = some (entryOf p)) ∧
      (∀ q e, log q = some e → ∃ k i, ∃ p ∈ ((run.state k).control.node i).hist.numbered,
        p.body.seq = q ∧ entryOf p = e) ∧
      (∀ k i,
        ((run.state k).control.node i).hist.executed.map (fun e => e.seq) =
          List.range' 1 (((run.state k).control.node i).executeNext - 1) ∧
        Follows (applyEntry hash) d.preload log
          (((run.state k).control.node i).hist.executed.map entryOfExecuted)
          ((run.state k).control.node i).kv) ∧
      (∀ k l i j, ((run.state k).control.node i).executeNext =
          ((run.state l).control.node j).executeNext →
        ((run.state k).control.node i).kv = ((run.state l).control.node j).kv) := by
  obtain ⟨queues, moment, later, related⟩ := exists_queues coherent full run
  have same := fun k i => (shows_of_related (related k)).same i
  have follows : ∀ k i, Follows (applyEntry hash) d.preload (globalLog queues)
      (((run.state k).control.node i).hist.executed.map entryOfExecuted)
      ((run.state k).control.node i).kv := by
    intro k i
    obtain ⟨-, kv, -, executed, -⟩ := same k i
    rw [← kv, ← executed]
    exact follows_globalLog queues (moment k) i
  have seqs : ∀ k i, ((run.state k).control.node i).hist.executed.map (fun e => e.seq) =
      List.range' 1 (((run.state k).control.node i).executeNext - 1) := by
    intro k i
    obtain ⟨next, -, -, executed, -⟩ := same k i
    rw [← next, ← executed]
    exact executed_seqs (flow_reachable (queues.reachable (moment k))) i
  refine ⟨globalLog queues, fun k i p numbered => ?_, fun q e assigned => ?_,
    fun k i => ⟨seqs k i, follows k i⟩, fun k l i j even => ?_⟩
  · rw [← (same k i).2.2.2.2] at numbered
    exact globalLog_numbered queues numbered
  · -- What is numbered at some moment of the shown run stays so until a moment of this one.
    obtain ⟨n, i, p, numbered, seq, entry⟩ := globalLog_some queues assigned
    have kept := (numbered_mono queues i (later.id_le n)).subset numbered
    rw [(same n i).2.2.2.2] at kept
    exact ⟨n, i, p, kept, seq, entry⟩
  · refine (follows k i).agree (follows l j) ?_
    have lengthI := congrArg List.length (seqs k i)
    have lengthJ := congrArg List.length (seqs l j)
    rw [List.length_map, List.length_range'] at lengthI lengthJ
    rw [List.length_map, List.length_map, lengthI, lengthJ, even]

/-- Node 1 delivers its write to itself, and node 2 handles what it took from the ring. -/
def deliverWrite : List MemoryAction :=
  [.thread (.selfDeliver 0 fun _ => 0), .thread (.handle 1 0 fun _ => 0)]

def bothExecute : (memorySystem List.length oneWrite (bandleRing true)).Execution :=
  runOf List.length oneWrite (sendWrite ++ (takeWrite ++ deliverWrite))

theorem memory_agreement_bothExecute :
    ((bothExecute.state 26).control.node 0).kv = ((bothExecute.state 26).control.node 1).kv := by
  obtain ⟨log, -, -, -, agreed⟩ :=
    memory_agreement List.length oneWrite (bandleRing true) rfl rfl bothExecute
  refine agreed 26 26 0 1 ?_
  rw [bothExecute, runOf_state _ _ _ 26 rfl]
  exact Eq.trans (b := 2) rfl rfl

/-- Over coherent rings of `kBandleRingCapacity` slots, for requests `a` of node `i` and `b` of
node `j` with proposals `A` and `B`: if `A` was done at a moment when `b` had no number, then `A`
precedes `B`; and two requests of one node are numbered in the order they were submitted. Whoever
executes `B` has executed `A` before it. -/
theorem memory_request_order (hash : Bytes → Nat) (d : Deployment)
    (windows : ∀ i, effectiveWindow (d.settings i) ≤ 16384) (r : RingShape)
    (coherent : r.coherent = true) (full : r.capacity = kBandleRingCapacity)
    (run : (memorySystem hash d r).Execution) (i j : NodeId) (k l a b : Nat)
    (A B : BandleMessage)
    (givenA : (clientNumbered ((run.state k).control.node i))[a]? = some A)
    (givenB : (clientNumbered ((run.state l).control.node j))[b]? = some B)
    (ordered : (A.body.seq ∈ ((run.state k).control.node i).acct.completed ∧
        (clientNumbered ((run.state k).control.node j))[b]? = none) ∨ (i = j ∧ a < b)) :
    A.body.seq < B.body.seq ∧
    (∃ q, (requestsOf d i)[a]? = some q ∧ Carries q A) ∧
    (∃ q, (requestsOf d j)[b]? = some q ∧ Carries q B) ∧
    ∀ t n, recordOf B ∈ ((run.state t).control.node n).hist.executed →
      ∃ p q : Nat, p < q ∧
        ((run.state t).control.node n).hist.executed[p]? = some (recordOf A) ∧
        ((run.state t).control.node n).hist.executed[q]? = some (recordOf B) := by
  obtain ⟨queues, moment, -, related⟩ := exists_queues coherent full run
  have shows := fun k => shows_of_related (related k)
  rw [← (shows k).clientNumbered] at givenA ordered
  rw [← (shows l).clientNumbered] at givenB
  obtain ⟨seqA, carriesA⟩ := clientNumbered_seq windows (queues.reachable (moment k)) i givenA
  obtain ⟨seqB, carriesB⟩ := clientNumbered_seq windows (queues.reachable (moment l)) j givenB
  have numberedA := (List.mem_filter.mp (List.mem_of_getElem? givenA)).1
  have numberedB := (List.mem_filter.mp (List.mem_of_getElem? givenB)).1
  have lt : A.body.seq < B.body.seq := by
    rcases ordered with ⟨done, fresh⟩ | ⟨node, before⟩
    · rw [← ((shows k).same i).2.2.1] at done
      have flow := flow_reachable (queues.reachable (moment k))
      have executed := ((flow.replica i).completed _ done).1
      have cross := flow.next_le i j
      have later := numbered_later queues numberedB
        (unnumbered_fresh windows queues givenB fresh)
      omega
    · subst node
      omega
  refine ⟨lt, carriesA, carriesB, fun t n executed => ?_⟩
  rw [← ((shows t).same n).2.2.2.1] at executed ⊢
  exact executed_before queues numberedA lt executed

/-- Node 2 submits its write when node 1's is done. -/
def twoWrites : (memorySystem List.length twoWriters (bandleRing true)).Execution :=
  runOf List.length twoWriters (sendWrite ++
    [.thread (.selfDeliver 0 fun _ => 0), .thread (.submit 1 fun _ _ => 0),
      .thread (.admission 1 fun _ => 0)])

theorem memory_request_order_twoWrites :
    ∃ A B, (clientNumbered ((twoWrites.state 18).control.node 0))[0]? = some A ∧
      (clientNumbered ((twoWrites.state 20).control.node 1))[0]? = some B ∧
      A.body.seq < B.body.seq := by
  have first : ∃ A, (clientNumbered ((twoWrites.state 18).control.node 0))[0]? = some A ∧
      A.body.seq ∈ ((twoWrites.state 18).control.node 0).acct.completed ∧
      (clientNumbered ((twoWrites.state 18).control.node 1))[0]? = none := by
    rw [twoWrites, runOf_state _ _ _ 18 rfl]
    exact ⟨_, rfl, by decide, rfl⟩
  have second : ∃ B, (clientNumbered ((twoWrites.state 20).control.node 1))[0]? = some B := by
    rw [twoWrites, runOf_state _ _ _ 20 rfl]
    exact ⟨_, rfl⟩
  obtain ⟨A, givenA, done, fresh⟩ := first
  obtain ⟨B, givenB⟩ := second
  refine ⟨A, B, givenA, givenB, ?_⟩
  exact (memory_request_order List.length twoWriters
    (fun _ => by change max 192 (3 * 32 + 3) ≤ 16384; decide) (bandleRing true) rfl rfl twoWrites
    0 1 18 20 0 0 A B givenA givenB (Or.inl ⟨done, fresh⟩)).1

end BandleCxl.Guarantees
