import BandleCxl.Source.Admission

/-!
Whether a chunk can ever be submitted. With everything proposed so far executed and the rings
empty nothing further can help, and then the two tests pass unless the chunk is larger than
a ring or the end of the window wraps around.
-/
namespace BandleCxl.Guarantees
open Library Source

theorem mem_chunkSizes {admitCap base proposalCount chunk : Nat}
    (member : chunk ∈ chunkSizes admitCap base proposalCount) : 1 ≤ chunk ∧ chunk ≤ admitCap := by
  induction left : proposalCount - base using Nat.strong_induction_on generalizing base with
  | _ n ih =>
    subst left
    rw [chunkSizes] at member
    split at member
    · rcases List.mem_cons.mp member with rfl | later
      · omega
      · exact ih _ (by omega) later rfl
    · cases member

/-- A chunk is never empty and no larger than `admission_batch`. -/
theorem submitChunks_bounds {n : Bandle} {bufs : Nat → Mem} {batch : List BorrowedRequest}
    {chunk : Nat} (cut : chunk ∈ n.submitChunks bufs batch) :
    1 ≤ chunk ∧ chunk ≤ n.cfg.admissionBatch := by
  obtain ⟨some, small⟩ := mem_chunkSizes cut
  have pos := n.cfg.batch_pos
  unfold Bandle.admissionBatchCapacity at small
  omega

theorem ofArgs_window_lt {a : Args} {cfg : Settings} (accepted : Settings.ofArgs a = some cfg) :
    cfg.admissionWindow < 2 ^ 64 := by
  unfold Settings.ofArgs at accepted
  split at accepted
  · obtain rfl := Option.some.inj accepted
    have bound := a.admissionWindow.isLt
    dsimp only
    split <;> omega
  · cases accepted

/-- A comparison of two sums after they wrap, for sums below `2 ^ 65`. -/
theorem wrapped_lt_iff {last limit : Nat} (before : last < limit) (once : limit < 2 * 2 ^ 64) :
    last % 2 ^ 64 < limit % 2 ^ 64 ↔
      limit < 2 ^ 64 ∨ 2 ^ 64 ≤ last ∨ last + 2 ^ 64 < limit := by
  omega

/-- What is left of the ring test when a ring is empty. -/
theorem canPushBatch_empty {r : RingShape} {s : RingMemory} {count : Nat} (empty : s.head = s.tail)
    (small : count < 2 ^ 64) : (s.canPushBatch r count).isSome ↔ count ≤ r.capacity := by
  have none : sub64 s.head s.tail = 0 := by
    rw [empty, sub64, Nat.add_sub_cancel_left, Nat.mod_self]
  rw [RingMemory.canPushBatch, none, add64, Nat.zero_add, Nat.mod_eq_of_lt small]
  split
  · next large => exact iff_of_false (by simp) (by omega)
  · next fits => exact iff_of_true rfl (by omega)

section
variable {n : Bandle} {chunk : Nat}

theorem broadcastReady_iff {r : RingShape} {rings : Nat → RingMemory} (small : chunk < 2 ^ 64)
    (empty : ∀ peer, 1 ≤ peer → peer ≤ 3 → peer ≠ n.cfg.nodeId →
      (rings peer).head = (rings peer).tail) :
    n.broadcastReady r rings chunk = true ↔ chunk ≤ r.capacity := by
  have three := n.cfg.three
  simp only [Bandle.broadcastReady, List.all_eq_true, List.mem_map, List.mem_range, three,
    Bool.or_eq_true, beq_iff_eq]
  constructor
  · intro ready
    -- Of the nodes 1 and 2 one is a peer.
    obtain ⟨peer, lower, upper, other⟩ : ∃ peer, 1 ≤ peer ∧ peer ≤ 2 ∧ peer ≠ n.cfg.nodeId := by
      by_cases first : n.cfg.nodeId = 1
      · exact ⟨2, by omega⟩
      · exact ⟨1, by omega⟩
    have accepts := (ready peer ⟨peer - 1, by omega, by omega⟩).resolve_left other
    exact (canPushBatch_empty (empty peer lower (by omega) other) small).mp accepts
  · rintro fits peer ⟨i, range, rfl⟩
    by_cases self : i + 1 = n.cfg.nodeId
    · exact Or.inl self
    · exact Or.inr ((canPushBatch_empty (empty (i + 1) (by omega) (by omega) self) small).mpr fits)

/-- The last number of the chunk, before it wraps. -/
def lastSeq (n : Bandle) (chunk : Nat) : Nat := n.nextSeq + 3 * (chunk - 1)

/-- The first number past the window, before it wraps. -/
def windowEnd (n : Bandle) (chunk : Nat) : Nat :=
  n.executeNext + max n.cfg.admissionWindow (3 * chunk + 3)

theorem admitsWord_iff (execute_word : n.executeNext < 2 ^ 64) (window : n.cfg.admissionWindow < 2 ^ 64)
    (some : 1 ≤ chunk) (small : chunk < 2 ^ 32) (executed : n.nextSeq ≤ n.executeNext + 2) :
    n.AdmitsWord chunk ↔ windowEnd n chunk < 2 ^ 64 ∨ 2 ^ 64 ≤ lastSeq n chunk ∨
      lastSeq n chunk + 2 ^ 64 < windowEnd n chunk := by
  have three := n.cfg.three
  have limit : n.chunkWindow chunk = max n.cfg.admissionWindow (3 * chunk + 3) := by
    rw [Bandle.chunkWindow, Bandle.maxInflightSeqWindow, three, Nat.mod_eq_of_lt small,
      Nat.max_eq_left some]
  have step : mul64 (chunk - 1) n.cfg.clusterSize = 3 * (chunk - 1) := by
    rw [mul64, three, Nat.mul_comm, Nat.mod_eq_of_lt (by omega)]
  have before : lastSeq n chunk < windowEnd n chunk := by
    unfold lastSeq windowEnd
    omega
  have once : windowEnd n chunk < 2 * 2 ^ 64 := by
    unfold windowEnd
    omega
  rw [← wrapped_lt_iff before once, Bandle.AdmitsWord, step, limit]
  exact Iff.rfl

end

/-! ### A node that has proposed nothing -/

/-- Node 1 of three with a window of `admissionWindow`; everything else is `main`'s default. -/
def argsWithWindow (admissionWindow : Fin (2 ^ 64)) : Args :=
  { defaultArgs 0 with admissionWindow := admissionWindow }

def settingsWithWindow (admissionWindow : Nat) : Settings :=
  { defaultSettings 0 with admissionWindow := admissionWindow }

def freshNode (admissionWindow : Nat) : Bandle :=
  Bandle.started (settingsWithWindow admissionWindow) .empty 0

theorem zero_lt_word : 0 < 2 ^ 64 := by decide

def emptyRing : RingMemory where
  head := 0
  tail := 0
  descs := fun _ => {}
  payloads := fun _ => 0
  head_lt := zero_lt_word
  tail_lt := zero_lt_word

/-- A single read is a single chunk. -/
theorem submitChunks_one_read (admissionWindow : Nat) :
    1 ∈ (freshNode admissionWindow).submitChunks (fun _ _ => 0) [.ofBytes opG [] []] := by
  have count : (Bandle.buildProposals (fun _ _ => 0) [.ofBytes opG [] []]
      (freshNode admissionWindow, [])).2.length = 1 := rfl
  rw [Bandle.submitChunks, count, chunkSizes]
  simp [Bandle.admissionBatchCapacity]

/-! ### Both tests -/

/-- For every setting that the constructor accepts, every batch and each of its chunks: when
all that was proposed is executed and the rings to the peers are empty, both tests pass just
when the chunk fits into a ring and the window does not end, wrapped, before the chunk. -/
theorem chunk_tests_met_iff {a : Args} {n : Bandle} (accepted : Settings.ofArgs a = some n.cfg)
    (execute_word : n.executeNext < 2 ^ 64) (executed : n.nextSeq ≤ n.executeNext + 2)
    (bufs : Nat → Mem) (batch : List BorrowedRequest)
    {chunk : Nat} (cut : chunk ∈ n.submitChunks bufs batch) (coherent : Bool)
    (rings : Nat → RingMemory)
    (empty : ∀ peer, 1 ≤ peer → peer ≤ 3 → peer ≠ n.cfg.nodeId →
      (rings peer).head = (rings peer).tail) :
    n.AdmitsWord chunk ∧ n.broadcastReady (bandleRing coherent) rings chunk = true ↔
      chunk ≤ kBandleRingCapacity ∧ (windowEnd n chunk < 2 ^ 64 ∨ 2 ^ 64 ≤ lastSeq n chunk ∨
        lastSeq n chunk + 2 ^ 64 < windowEnd n chunk) := by
  obtain ⟨some, batch_le⟩ := submitChunks_bounds cut
  have small : chunk < 2 ^ 32 := Nat.lt_of_le_of_lt batch_le n.cfg.batch_lt
  rw [admitsWord_iff execute_word (ofArgs_window_lt accepted) some small executed,
    broadcastReady_iff (by omega) empty, and_comm]
  exact Iff.rfl

theorem default_window_met :
    (freshNode 192).AdmitsWord 1 ∧
      (freshNode 192).broadcastReady (bandleRing true) (fun _ => emptyRing) 1 = true :=
  (chunk_tests_met_iff (a := argsWithWindow 192) (n := freshNode 192) rfl (by decide) (by decide)
    (fun _ _ => 0) [.ofBytes opG [] []] (submitChunks_one_read 192) true (fun _ => emptyRing)
    fun _ _ _ _ => rfl).mpr ⟨by decide, Or.inl (by decide)⟩

/-- With the largest window a fresh node never admits its first request. -/
theorem largest_window_never_admits :
    Settings.ofArgs (argsWithWindow 18446744073709551615) =
        some (freshNode 18446744073709551615).cfg ∧
      (freshNode 18446744073709551615).nextSeq ≤ (freshNode 18446744073709551615).executeNext + 2 ∧
      1 ∈ (freshNode 18446744073709551615).submitChunks (fun _ _ => 0) [.ofBytes opG [] []] ∧
      emptyRing.head = emptyRing.tail ∧
      ¬((freshNode 18446744073709551615).AdmitsWord 1 ∧
        (freshNode 18446744073709551615).broadcastReady (bandleRing true) (fun _ => emptyRing) 1 =
          true) := by
  refine ⟨rfl, by decide, submitChunks_one_read _, rfl, fun met => ?_⟩
  exact absurd met.1 (by decide)

end BandleCxl.Guarantees
