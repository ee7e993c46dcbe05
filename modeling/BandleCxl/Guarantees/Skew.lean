import BandleCxl.Invariant.Flow

/-!
Bounded skew between replicas. A node's lead over its own `execute_next_` is
bounded by its settings; since no node can execute a number that its owner has not
handed out, that bound carries over to every other node.
-/
namespace BandleCxl.Guarantees
open Library Source Bandle Invariant

/-- In every reachable state and for all nodes `i` and `j`: `execute_next_` of `i`
has not passed `next_seq_` of `j`, `j`'s own lead is bounded, and what `i` has
numbered and `j` has not handled lies within the two bounds of `j`'s progress. -/
theorem bounded_skew (hash : Bytes → Nat) (d : Deployment) (s : Cluster)
    (reached : (clusterSystem hash d).Reachable s) (i j : NodeId) :
    (s.node i).executeNext ≤ (s.node j).nextSeq ∧
    (s.node j).nextSeq < (s.node j).executeNext + leadBound (d.settings j) + 3 ∧
    ∀ m ∈ (s.node i).hist.numbered, m ∉ (s.node j).hist.handled →
      (s.node j).executeNext ≤ m.body.seq ∧
      m.body.seq < (s.node j).executeNext + leadBound (d.settings i) +
        leadBound (d.settings j) + 3 := by
  have flow := flow_reachable reached
  have control := control_reachable reached
  refine ⟨flow.next_le i j, (control.node j).lead, fun m numbered unhandled => ⟨?_, ?_⟩⟩
  · exact flow.unhandled_ge numbered unhandled
  · have skew := numbered_skew flow control i j numbered
    omega

/-- Node 1 submits one write and numbers it. -/
def numberedWrite : List Action := [.submit 0 fun _ _ => 0, .admission 0 fun _ => 0]

/-- After these steps the write is numbered and not handled at node 2. -/
theorem bounded_skew_numberedWrite :
    ∃ s, (clusterSystem List.length oneWrite).run (Cluster.initial oneWrite) numberedWrite =
        some s ∧
      (s.node 0).nextSeq = 4 ∧ (s.node 0).executeNext ≤ (s.node 1).nextSeq ∧
      (s.node 1).nextSeq < (s.node 1).executeNext + leadBound (defaultSettings 1) + 3 ∧
      ∀ m ∈ (s.node 0).hist.numbered, m ∉ (s.node 1).hist.handled →
        (s.node 1).executeNext ≤ m.body.seq ∧
        m.body.seq < (s.node 1).executeNext + leadBound (defaultSettings 0) +
          leadBound (defaultSettings 1) + 3 := by
  refine ⟨_, rfl, rfl, ?_⟩
  exact bounded_skew List.length oneWrite _ (.of_run numberedWrite (.start rfl) rfl) 0 1

end BandleCxl.Guarantees
