import BandleCxl.Library.ReplicatedLog
import BandleCxl.Invariant.Flow

/-!
Replica agreement. The proposals numbered in a run, over all nodes and moments,
form one log, and in every state every node follows it. The abstract state
machine is the key-value store under the four client operations; nothing is
assumed about the windows, so a slot collision can stop a replica but cannot make
it diverge.
-/
namespace BandleCxl.Guarantees
open Library Source Bandle Invariant

/-- One cell of the global log. -/
structure Entry where
  proposer : Nat
  op : UInt8
  key : Bytes
  value : Bytes
  deriving DecidableEq, Repr

def entryOf (m : BandleMessage) : Entry where
  proposer := m.body.proposer
  op := m.body.op
  key := m.body.key
  value := m.body.val

def entryOfExecuted (r : Executed) : Entry where
  proposer := r.proposer
  op := r.op
  key := r.key
  value := r.value

/-- What a log cell does to a store: put, update if present, erase, or nothing. -/
def applyEntry (hash : Bytes → Nat) (kv : KVStore) (e : Entry) : KVStore :=
  if e.op = opP then kv.put hash e.key e.value
  else if e.op = opU then (kv.update hash e.key e.value).1
  else if e.op = opD then (kv.erase hash e.key).1
  else kv

variable {hash : Bytes → Nat} {d : Deployment} {s t : Cluster}

/-- Numbered proposals stay numbered, in place. -/
theorem numbered_mono (run : (clusterSystem hash d).Execution) (i : NodeId) {k l : Nat}
    (le : k ≤ l) :
    ((run.state k).node i).hist.numbered <+: ((run.state l).node i).hist.numbered := by
  refine run.monotone (R := fun s t => (s.node i).hist.numbered <+: (t.node i).hist.numbered)
    (fun _ => List.prefix_rfl) (fun _ _ _ => List.IsPrefix.trans) ?_ le
  intro s a t reached stepped
  obtain same | ⟨msgs, numbers⟩ | ⟨j, tsc, msgs, -, node⟩ :=
    (effect_of_step reached stepped).at_node i
  · rw [same.numbered]
  · rw [numbers.numbered]
    exact List.prefix_append _ _
  · rw [node, (ProposingSame.advance _).numbered, (ProposingSame.recordAll _ _).numbered]

/-- A number names one proposal in the whole run. -/
theorem numbered_unique (run : (clusterSystem hash d).Execution) {k l : Nat} {i j : NodeId}
    {m m' : BandleMessage} (first : m ∈ ((run.state k).node i).hist.numbered)
    (second : m' ∈ ((run.state l).node j).hist.numbered) (same : m.body.seq = m'.body.seq) :
    m = m' := by
  have flow := flow_reachable (run.reachable (max k l))
  exact (flow.unique ((numbered_mono run i (Nat.le_max_left k l)).subset first)
    ((numbered_mono run j (Nat.le_max_right k l)).subset second) same).2

/-- The global log of a run: the proposal that was given each number. -/
noncomputable def globalLog (run : (clusterSystem hash d).Execution) (q : Nat) : Option Entry :=
  open Classical in
  if proposed : ∃ m, m.body.seq = q ∧ ∃ k i, m ∈ ((run.state k).node i).hist.numbered then
    some (entryOf proposed.choose)
  else none

theorem globalLog_numbered (run : (clusterSystem hash d).Execution) {k : Nat} {i : NodeId}
    {m : BandleMessage} (numbered : m ∈ ((run.state k).node i).hist.numbered) :
    globalLog run m.body.seq = some (entryOf m) := by
  have proposed : ∃ m', m'.body.seq = m.body.seq ∧
    ∃ k i, m' ∈ ((run.state k).node i).hist.numbered := ⟨m, rfl, k, i, numbered⟩
  obtain ⟨seq, l, j, other⟩ := proposed.choose_spec
  rw [globalLog, dif_pos proposed, numbered_unique run other numbered seq]

theorem globalLog_some (run : (clusterSystem hash d).Execution) {q : Nat} {e : Entry}
    (assigned : globalLog run q = some e) :
    ∃ k i, ∃ m ∈ ((run.state k).node i).hist.numbered, m.body.seq = q ∧ entryOf m = e := by
  unfold globalLog at assigned
  split at assigned
  · next proposed =>
    obtain ⟨seq, k, i, numbered⟩ := proposed.choose_spec
    exact ⟨k, i, _, numbered, seq, Option.some.inj assigned⟩
  · cases assigned

/-! ### One node -/

/-- What a node has executed carries the numbers `1 .. execute_next_ - 1`, in order. -/
theorem executed_seqs (flow : FlowInv hash d.preload s) (i : NodeId) :
    (s.node i).hist.executed.map (fun r => r.seq) =
      List.range' 1 ((s.node i).executeNext - 1) := by
  have count := (flow.replica i).count
  apply List.ext_getElem
  · simp
    omega
  · intro k inside _
    rw [List.length_map] at inside
    obtain ⟨m, -, seq, record⟩ := (flow.replica i).executed k _ (List.getElem?_eq_getElem inside)
    simp only [List.getElem_map, List.getElem_range', record, recordOf, seq]
    omega

/-- Every executed record is the record of a proposal its owner numbered. -/
theorem executed_numbered (flow : FlowInv hash d.preload s) (i : NodeId) {k : Nat}
    (inside : k < (s.node i).hist.executed.length) :
    ∃ j, ∃ m ∈ (s.node j).hist.numbered, m.body.seq = k + 1 ∧
      (s.node i).hist.executed[k] = recordOf m := by
  obtain ⟨m, handled, seq, record⟩ := (flow.replica i).executed k _ (List.getElem?_eq_getElem inside)
  obtain ⟨j, -, numbered⟩ := flow.handled_numbered handled
  exact ⟨j, m, numbered, seq, record⟩

/-- A numbered proposal is executed where `execute_next_` has passed its number. -/
theorem executed_iff (flow : FlowInv hash d.preload s) {i : NodeId} (j : NodeId)
    {m : BandleMessage} (numbered : m ∈ (s.node i).hist.numbered) :
    recordOf m ∈ (s.node j).hist.executed ↔ m.body.seq < (s.node j).executeNext := by
  have count := (flow.replica j).count
  constructor
  · intro executed
    obtain ⟨k, inside, found⟩ := List.getElem_of_mem executed
    obtain ⟨l, m', -, seq, record⟩ := executed_numbered flow j inside
    have same := congrArg Executed.seq (found.symm.trans record)
    simp only [recordOf] at same
    omega
  · intro below
    obtain ⟨k, -, seq, -⟩ := flow.seq_of_mem numbered
    unfold number at seq
    have inside : m.body.seq - 1 < (s.node j).hist.executed.length := by omega
    obtain ⟨l, m', numbered', seq', record⟩ := executed_numbered flow j inside
    rw [← (flow.unique numbered' numbered (by omega)).2, ← record]
    exact List.getElem_mem inside

/-- The store is the fold of the executed entries over the preload. -/
theorem store_fold (flow : FlowInv hash d.preload s) (i : NodeId) :
    (s.node i).kv =
      ((s.node i).hist.executed.map entryOfExecuted).foldl (applyEntry hash) d.preload := by
  rw [(flow.replica i).store, List.foldl_map]
  refine List.foldl_ext _ _ _ fun kv r member => ?_
  obtain ⟨k, inside, found⟩ := List.getElem_of_mem member
  obtain ⟨j, m, -, -, record⟩ := executed_numbered flow i inside
  rw [← found, record]
  rfl

theorem follows_globalLog (run : (clusterSystem hash d).Execution) (k : Nat) (i : NodeId) :
    Follows (applyEntry hash) d.preload (globalLog run)
      (((run.state k).node i).hist.executed.map entryOfExecuted) ((run.state k).node i).kv := by
  have flow := flow_reachable (run.reachable k)
  refine ⟨fun l inside => ?_, store_fold flow i⟩
  rw [List.length_map] at inside
  obtain ⟨j, m, numbered, seq, record⟩ := executed_numbered flow i inside
  rw [← seq, globalLog_numbered run numbered, List.getElem_map, record]
  rfl

/-- In every run there is one log such that in every state every node has executed
its first `execute_next_ - 1` entries, each once and in order, and its store is
their fold over the preloaded one. Two replicas that got equally far, at whatever
moments, hold equal stores. -/
theorem replica_agreement (hash : Bytes → Nat) (d : Deployment)
    (run : (clusterSystem hash d).Execution) :
    ∃ log : Nat → Option Entry,
      (∀ k i, ∀ m ∈ ((run.state k).node i).hist.numbered,
        log m.body.seq = some (entryOf m)) ∧
      (∀ q e, log q = some e → ∃ k i, ∃ m ∈ ((run.state k).node i).hist.numbered,
        m.body.seq = q ∧ entryOf m = e) ∧
      (∀ k i,
        ((run.state k).node i).hist.executed.map (fun r => r.seq) =
          List.range' 1 (((run.state k).node i).executeNext - 1) ∧
        Follows (applyEntry hash) d.preload log
          (((run.state k).node i).hist.executed.map entryOfExecuted)
          ((run.state k).node i).kv) ∧
      (∀ k l i j, ((run.state k).node i).executeNext = ((run.state l).node j).executeNext →
        ((run.state k).node i).kv = ((run.state l).node j).kv) := by
  refine ⟨globalLog run, fun k i m numbered => globalLog_numbered run numbered,
    fun q e assigned => globalLog_some run assigned, fun k i => ⟨?_, follows_globalLog run k i⟩, ?_⟩
  · exact executed_seqs (flow_reachable (run.reachable k)) i
  · intro k l i j same
    have countI := ((flow_reachable (run.reachable k)).replica i).count
    have countJ := ((flow_reachable (run.reachable l)).replica j).count
    refine (follows_globalLog run k i).agree (follows_globalLog run l j) ?_
    rw [List.length_map, List.length_map]
    omega

end BandleCxl.Guarantees
