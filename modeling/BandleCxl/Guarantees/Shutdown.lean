import BandleCxl.Guarantees.Agreement
import BandleCxl.Invariant.Retained
import BandleCxl.Invariant.Submission

/-!
What the stores hold when the nodes stop. The finish barrier says that each node's
own requests are done; `stop` then ends the receive threads whatever is left on the
rings. An acknowledged request is executed at its proposer, and at another node only
if that node has handled every proposal up to its number; there that is enough unless
the node has lost a live log slot. The stores are folds of prefixes of one log at
every moment, so also after `stop`.
-/
namespace BandleCxl.Guarantees
open Library Source Bandle Invariant

variable {hash : Bytes → Nat} {d : Deployment} {s : Cluster}

/-- A node that has handled every proposal up to a number that some node executed
has executed it too. -/
theorem executed_of_handled (flow : FlowInv hash d.preload s) {i j : NodeId}
    (kept : Retained (s.node j)) {q : Nat} (executed : q < (s.node i).executeNext)
    (handled : ∀ l, ∀ p ∈ (s.node l).hist.numbered, p.body.seq ≤ q → p ∈ (s.node j).hist.handled) :
    q < (s.node j).executeNext := by
  by_contra behind
  have count := (flow.replica j).count
  -- the number this node waits for was executed at `i`, so it was handed out
  obtain ⟨m, elsewhere, seq⟩ := flow.executed_handled i (q := (s.node j).executeNext)
    (by omega) (by omega)
  obtain ⟨l, -, numbered⟩ := flow.handled_numbered elsewhere
  have here := handled l m numbered (by omega)
  obtain ⟨same, known, decided, -⟩ := kept m here (by omega)
  rw [seq] at same known decided
  exact flow.drained j ⟨same, decided, fun _ => known⟩

/-- An executed number was handled, and so was every number before it. -/
theorem handled_of_executed (flow : FlowInv hash d.preload s) {j l : NodeId} {q : Nat}
    (executed : q < (s.node j).executeNext) {p : BandleMessage}
    (proposed : p ∈ (s.node l).hist.numbered) (le : p.body.seq ≤ q) :
    p ∈ (s.node j).hist.handled := by
  obtain ⟨k, -, seq, -⟩ := flow.seq_of_mem proposed
  obtain ⟨m, handled, same⟩ := flow.executed_handled j (q := p.body.seq)
    (by unfold number at seq; omega) (by omega)
  obtain ⟨l', -, numbered⟩ := flow.handled_numbered handled
  exact (flow.unique numbered proposed same).2 ▸ handled

/-- An acknowledged request is executed at its proposer. At a node that has reset no
live log slot it is executed exactly if that node has handled every proposal up to its
number; at any node it is executed only then. Of any two nodes one has executed a
prefix of what the other has, and each store is the fold of what its node has executed.
This holds in every reachable state, so at the moment a `stop` returns. -/
theorem acknowledged_at_shutdown (hash : Bytes → Nat) (d : Deployment) (s : Cluster)
    (reached : (clusterSystem hash d).Reachable s) :
    (∀ i, ∀ m ∈ clientNumbered (s.node i), m.body.seq ∈ (s.node i).acct.completed →
      recordOf m ∈ (s.node i).hist.executed ∧
      ∀ j,
        (recordOf m ∈ (s.node j).hist.executed →
          ∀ l, ∀ p ∈ (s.node l).hist.numbered, p.body.seq ≤ m.body.seq →
            p ∈ (s.node j).hist.handled) ∧
        ((s.node j).hist.resetLive = [] →
          (∀ l, ∀ p ∈ (s.node l).hist.numbered, p.body.seq ≤ m.body.seq →
            p ∈ (s.node j).hist.handled) → recordOf m ∈ (s.node j).hist.executed)) ∧
    (∀ i j, (s.node i).executeNext ≤ (s.node j).executeNext →
      (s.node i).hist.executed <+: (s.node j).hist.executed) ∧
    ∀ j, (s.node j).kv =
      ((s.node j).hist.executed.map entryOfExecuted).foldl (applyEntry hash) d.preload := by
  have flow := flow_reachable reached
  have kept := retained_reachable reached
  refine ⟨fun i m client acknowledged => ?_, fun i j le => ?_, fun j => store_fold flow j⟩
  · have numbered := (List.mem_filter.mp client).1
    have own := ((flow.replica i).completed _ acknowledged).1
    refine ⟨(executed_iff flow i numbered).mpr own, fun j => ?_⟩
    rw [executed_iff flow j numbered]
    constructor
    · exact fun below l p proposed le => handled_of_executed flow below proposed le
    · exact fun clean => executed_of_handled flow (kept j clean) own
  · have countI := (flow.replica i).count
    have countJ := (flow.replica j).count
    rw [List.prefix_iff_eq_take]
    apply List.ext_getElem
    · rw [List.length_take]
      omega
    · intro k inside _
      obtain ⟨l, m, numbered, seq, record⟩ := executed_numbered flow i inside
      obtain ⟨l', m', numbered', seq', record'⟩ := executed_numbered flow j (k := k) (by omega)
      rw [List.getElem_take, record, record', (flow.unique numbered numbered' (by omega)).2]

/-! ### A run that loses an acknowledged write -/

/-- All nodes finish and stop; nobody looks at a ring again. -/
def finishAll : List Action :=
  [.markInputDone 0, .pendingDone 0, .markInputDone 1, .pendingDone 1, .markInputDone 2,
    .pendingDone 2, .stop 0, .stop 1, .stop 2, .proposerExit 0, .proposerExit 1, .proposerExit 2,
    .recvExit 0 1, .recvExit 0 2, .recvExit 1 0, .recvExit 1 2, .recvExit 2 0, .recvExit 2 1,
    .join 0, .join 1, .join 2]

theorem acknowledged_at_shutdown_oneWrite :
    ∃ s, (clusterSystem List.length oneWrite).run (Cluster.initial oneWrite) acknowledge = some s ∧
      (s.node 0).acct.completed = [1] ∧
      ∀ m ∈ clientNumbered (s.node 0), m.body.seq ∈ (s.node 0).acct.completed →
        recordOf m ∈ (s.node 0).hist.executed := by
  refine ⟨_, rfl, rfl, fun m client acknowledged => ?_⟩
  exact ((acknowledged_at_shutdown List.length oneWrite _
    (.of_run acknowledge (.start rfl) rfl)).1 0 m client acknowledged).1

/-- The three nodes have stopped, node 1 counts its write as done and holds it, and
nodes 2 and 3 do not. -/
theorem stop_loses_acknowledged_write :
    ∃ s, (clusterSystem List.length oneWrite).Reachable s ∧
      (∀ i, s.client i = .stopped) ∧ (s.node 0).acct.okOps = 1 ∧ (s.node 0).acct.writeOps = 1 ∧
      (s.node 0).kv.find List.length [1] = some [2] ∧
      (s.node 1).kv.find List.length [1] = none ∧ (s.node 2).kv.find List.length [1] = none := by
  refine ⟨_, .of_run (acknowledge ++ finishAll) (.start rfl) rfl, ?_, rfl, rfl, rfl, rfl, rfl⟩
  intro i
  fin_cases i <;> rfl

end BandleCxl.Guarantees
