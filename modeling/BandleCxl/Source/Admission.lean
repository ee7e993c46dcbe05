import BandleCxl.Source.Cluster
import BandleCxl.Source.RingCalls

/-!
The two tests that a chunk of `submit_borrowed_batch` waits for (`src/bandle.cpp`), in the
64-bit arithmetic of the source: the admission test, and `can_push_batch` on the rings to
both peers. The cluster with this admission test stands beside the one without wrap-around.
-/
namespace BandleCxl.Source
open Library Bandle

/-- The loop over `base`: the sizes of the chunks. `admit_cap` is never zero. -/
def chunkSizes (admitCap base proposalCount : Nat) : List Nat :=
  if base < proposalCount ∧ 0 < admitCap then
    min admitCap (proposalCount - base) :: chunkSizes admitCap (base + admitCap) proposalCount
  else []
termination_by proposalCount - base

namespace Bandle

/-- The chunks that a batch is submitted in. -/
def submitChunks (n : Bandle) (bufs : Nat → Mem) (batch : List BorrowedRequest) : List Nat :=
  let proposalCount := (buildProposals bufs batch (n, [])).2.length
  chunkSizes (admissionBatchCapacity proposalCount n.cfg.admissionBatch) 0 proposalCount

/-- `last_seq < execute_next_ + window`; `Admits` is the same test without wrap-around. -/
def AdmitsWord (n : Bandle) (chunk : Nat) : Prop :=
  add64 n.nextSeq (mul64 (chunk - 1) n.cfg.clusterSize) <
    add64 n.executeNext (n.chunkWindow chunk)

instance (n : Bandle) (chunk : Nat) : Decidable (n.AdmitsWord chunk) :=
  inferInstanceAs (Decidable (_ < _))

/-- The last number of the chunk is a 64-bit value. -/
def NumbersFit (n : Bandle) (chunk : Nat) : Prop :=
  n.nextSeq + (chunk - 1) * n.cfg.clusterSize < 2 ^ 64

theorem NumbersFit.last {n : Bandle} {chunk : Nat} (fit : n.NumbersFit chunk) :
    add64 n.nextSeq (mul64 (chunk - 1) n.cfg.clusterSize) =
      n.nextSeq + (chunk - 1) * n.cfg.clusterSize := by
  unfold NumbersFit at fit
  unfold add64 mul64
  rw [Nat.mod_eq_of_lt (by omega : (chunk - 1) * n.cfg.clusterSize < 2 ^ 64), Nat.mod_eq_of_lt fit]

/-- What the source admits passes the test without wrap-around. -/
theorem admits_of_admitsWord {n : Bandle} {chunk : Nat} (fit : n.NumbersFit chunk)
    (admits : n.AdmitsWord chunk) : n.Admits chunk := by
  unfold AdmitsWord at admits
  rw [fit.last] at admits
  exact Nat.lt_of_lt_of_le admits (Nat.mod_le _ _)

theorem admitsWord_iff_admits {n : Bandle} {chunk : Nat} (fit : n.NumbersFit chunk)
    (limit : n.executeNext + n.chunkWindow chunk < 2 ^ 64) : n.AdmitsWord chunk ↔ n.Admits chunk := by
  unfold AdmitsWord
  rw [fit.last, add64, Nat.mod_eq_of_lt limit]
  exact Iff.rfl

/-- The loop over the peers at the top of `broadcast_batch`; `rings` are the rings from this
node. -/
def broadcastReady (n : Bandle) (r : RingShape) (rings : Nat → RingMemory) (count : Nat) : Bool :=
  ((List.range n.cfg.clusterSize).map (· + 1)).all fun peer =>
    peer == n.cfg.nodeId || ((rings peer).canPushBatch r count).isSome

end Bandle

namespace Cluster

/-- `admitStep` with the admission test of the source. -/
def admitWordStep (s : Cluster) (i : NodeId) (tsc : Nat → Nat) : Option Cluster :=
  match s.client i with
  | .admission cap chunk rest =>
    if (s.node i).AdmitsWord chunk.length then
      let numbered := numberChunk tsc (s.node i) chunk
      some ((s.setNode i numbered.1).setClient i (.broadcast cap numbered.2 rest))
    else none
  | _ => none

def wordStep (hash : Bytes → Nat) (s : Cluster) : Action → Option Cluster
  | .admission i tsc => s.admitWordStep i tsc
  | a => s.step hash a

end Cluster

/-- The runs of a deployment under the admission test of the source. -/
def clusterWords (hash : Bytes → Nat) (d : Deployment) : TransitionSystem Cluster Action where
  init s := s = Cluster.initial d
  step := Cluster.wordStep hash

end BandleCxl.Source
