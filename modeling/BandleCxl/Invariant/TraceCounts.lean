import BandleCxl.Invariant.TraceLocks

/-!
How many calls have begun since the files were opened, how many of them count as reads and
writes, and which have returned.
-/
namespace BandleCxl.Invariant
open Library Source

variable {T : Type*} [DecidableEq T] {b : TraceSetup} {s s' : TraceState T} {t : T}
  {pc' : TracePc}

/-- Every call of the session has returned or is under way. -/
def Covered (s : TraceState T) : Prop :=
  ∀ k, s.firstOp ≤ k → k < s.opCount →
    (∃ r ∈ s.returned, r.1.opIndex = atomicLong k) ∨
      ∃ t op, (s.pc t).op = some op ∧ op.opIndex = atomicLong k

/-- The thread goes on with its call, or the call is among those that have returned. -/
theorem Covered.moved (h : Covered s) (moved : s'.pc = Function.update s.pc t pc')
    (counts : s'.firstOp = s.firstOp ∧ s'.opCount = s.opCount)
    (returned : ∀ r ∈ s.returned, r ∈ s'.returned)
    (kept : ∀ op, (s.pc t).op = some op → pc'.op = some op ∨ ∃ ok, (op, ok) ∈ s'.returned) :
    Covered s' := by
  intro k after before
  rw [counts.1] at after
  rw [counts.2] at before
  rcases h k after before with ⟨r, member, index⟩ | ⟨u, op, under, index⟩
  · exact Or.inl ⟨r, returned r member, index⟩
  · rcases eq_or_ne u t with rfl | other
    · rcases kept op under with still | ⟨ok, member⟩
      · refine Or.inr ⟨u, op, ?_, index⟩
        rwa [moved, Function.update_self]
      · exact Or.inl ⟨(op, ok), member, index⟩
    · refine Or.inr ⟨u, op, ?_, index⟩
      rwa [moved, Function.update_of_ne other]

/-- A call of the session failed only if the counters had wrapped around. -/
structure Valid (b : TraceSetup) (s : TraceState T) : Prop where
  ok : ∀ r ∈ s.returned, r.2 = true
  chosen : ∀ t op node, s.pc t = .chosen op node → 0 ≤ node ∧ node < b.nodes

structure Tallies [Fintype T] (b : TraceSetup) (s : TraceState T) : Prop where
  counted : s.opCount = s.readCount + s.writeCount + (standing TracePc.uncounted s.pc).card
  covered : Covered s
  valid : s.opCount < 2 ^ 63 → Valid b s

theorem atomicLong_small {n : Nat} (small : n < 2 ^ 63) : atomicLong n = n := by
  unfold atomicLong
  rw [Int.bmod_eq_of_le] <;> omega

theorem chooseReadNode_range {n : Nat} (small : n < 2 ^ 63) :
    0 ≤ b.chooseReadNode (atomicLong n) ∧ b.chooseReadNode (atomicLong n) < b.nodes := by
  have nodes := b.nodes_range
  rw [atomicLong_small small, TraceSetup.chooseReadNode]
  split
  · omega
  · split
    · have lt := Int.tmod_lt_of_pos (n : Int) (show (0 : Int) < b.nodes by omega)
      have nonneg := Int.tmod_nonneg (b.nodes : Int) (Int.natCast_nonneg n)
      exact ⟨nonneg, lt⟩
    · have lt := Int.tmod_lt_of_pos (n : Int) (show (0 : Int) < b.nodes - 1 by omega)
      have nonneg := Int.tmod_nonneg ((b.nodes : Int) - 1) (Int.natCast_nonneg n)
      omega

theorem chooseWriteNode_range {n : Nat} (small : n < 2 ^ 63) :
    0 ≤ b.chooseWriteNode (atomicLong n) ∧ b.chooseWriteNode (atomicLong n) < b.nodes := by
  have nodes := b.nodes_range
  rw [atomicLong_small small, TraceSetup.chooseWriteNode]
  split
  · omega
  · split
    · omega
    · exact ⟨Int.tmod_nonneg (b.nodes : Int) (Int.natCast_nonneg n),
        Int.tmod_lt_of_pos (n : Int) (show (0 : Int) < b.nodes by omega)⟩

theorem Valid.moved (h : Valid b s) (moved : s'.pc = Function.update s.pc t pc')
    (ok : ∀ r ∈ s'.returned, r.2 = true)
    (chosen : ∀ op node, pc' = .chosen op node → 0 ≤ node ∧ node < b.nodes) : Valid b s' where
  ok := ok
  chosen u op node here := by
    rw [moved] at here
    rcases eq_or_ne u t with rfl | other
    · rw [Function.update_self] at here
      exact chosen op node here
    · rw [Function.update_of_ne other] at here
      exact h.chosen u op node here

section
variable [Fintype T]

/-- A step that begins no call, counts none and chooses no node. -/
theorem Tallies.moved (h : Tallies b s) (moved : s'.pc = Function.update s.pc t pc')
    (counts : s'.firstOp = s.firstOp ∧ s'.opCount = s.opCount)
    (tallied : s'.readCount = s.readCount ∧ s'.writeCount = s.writeCount)
    (uncounted : (s.pc t).uncounted = pc'.uncounted)
    (returned : ∀ r ∈ s.returned, r ∈ s'.returned)
    (kept : ∀ op, (s.pc t).op = some op → pc'.op = some op ∨ ∃ ok, (op, ok) ∈ s'.returned)
    (ok : s.opCount < 2 ^ 63 → ∀ r ∈ s'.returned, r.2 = true)
    (chosen : ∀ op node, pc' ≠ .chosen op node) : Tallies b s' where
  counted := by
    rw [counts.2, tallied.1, tallied.2, moved, standing_same uncounted]
    exact h.counted
  covered := h.covered.moved moved counts returned kept
  valid small := by
    rw [counts.2] at small
    exact (h.valid small).moved moved (ok small) fun op node same => absurd same (chosen op node)

theorem Tallies.begin (h : Tallies b s) {call : YcsbCall}
    (stepped : s.beginStep t call = some s') : Tallies b s' := by
  unfold TraceState.beginStep at stepped
  split at stepped
  · next here =>
    obtain rfl := Option.some.inj stepped
    have entered : (standing TracePc.uncounted
        (Function.update s.pc t (.numbered ⟨call, atomicLong s.opCount⟩))).card =
          (standing TracePc.uncounted s.pc).card + 1 :=
      card_standing_enter (by rw [here]; rfl) rfl
    have counted := h.counted
    refine ⟨?_, ?_, fun small => ?_⟩
    · simp only [TraceState.setPc]
      omega
    · intro k after before
      have before : k < s.opCount + 1 := before
      rcases Nat.lt_succ_iff_lt_or_eq.mp before with old | rfl
      · rcases h.covered k after old with done | ⟨u, op, under, index⟩
        · exact Or.inl done
        · refine Or.inr ⟨u, op, ?_, index⟩
          have other : u ≠ t := by
            rintro rfl
            rw [here] at under
            cases under
          simp only [TraceState.setPc, Function.update_of_ne other]
          exact under
      · refine Or.inr ⟨t, ⟨call, atomicLong s.opCount⟩, ?_, by dsimp only⟩
        simp only [TraceState.setPc, Function.update_self]
        dsimp only [TracePc.op]
    · have valid := h.valid (Nat.lt_of_succ_lt small)
      exact valid.moved rfl valid.ok (by simp)
  · cases stepped

theorem Tallies.cleanup (h : Tallies b s) (stepped : s.cleanupStep t = some s') :
    Tallies b s' := by
  unfold TraceState.cleanupStep at stepped
  split at stepped
  · next here =>
    obtain rfl := Option.some.inj stepped
    exact h.moved rfl ⟨rfl, rfl⟩ ⟨rfl, rfl⟩ (by rw [here]; rfl) (fun r member => member)
      (by rw [here]; simp [TracePc.op]) (fun small => (h.valid small).ok) (by simp)
  · cases stepped

theorem Tallies.init (h : Tallies b s) (stepped : s.initStep b t = some s') : Tallies b s' := by
  unfold TraceState.initStep at stepped
  split at stepped
  · next here =>
    dsimp only at stepped
    split at stepped
    · obtain rfl := Option.some.inj stepped
      exact h.moved rfl ⟨rfl, rfl⟩ ⟨rfl, rfl⟩ (by rw [here]; rfl) (fun r member => member)
        (by rw [here]; simp [TracePc.op]) (fun small => (h.valid small).ok) (by simp)
    · split at stepped
      · cases stepped
      · obtain rfl := Option.some.inj stepped
        refine ⟨?_, fun k after before => absurd before (Nat.not_lt.mpr after), fun small =>
          (h.valid small).moved rfl (List.forall_mem_nil _) (by simp)⟩
        simp only [TraceState.setPc]
        rw [standing_same (by rw [here]; rfl)]
        exact h.counted
  · cases stepped

theorem Tallies.draw (h : Tallies b s) {floored : Nat}
    (stepped : s.drawStep b t floored = some s') : Tallies b s' := by
  unfold TraceState.drawStep at stepped
  split at stepped
  · next op node here =>
    split at stepped
    · obtain rfl := Option.some.inj stepped
      exact h.moved rfl ⟨rfl, rfl⟩ ⟨rfl, rfl⟩ (by rw [here]; rfl) (fun r member => member)
        (by rw [here]; exact fun op same => Or.inl same) (fun small => (h.valid small).ok) (by simp)
    · cases stepped
  · cases stepped

omit [DecidableEq T] in
/-- The node of a call is in range unless a counter has wrapped around. -/
theorem Tallies.choose (h : Tallies b s) (op : TraceOp) (small : s.opCount < 2 ^ 63) :
    0 ≤ (if b.isWrite op then b.chooseWriteNode (atomicLong s.writeCount)
      else b.chooseReadNode (atomicLong s.readCount)) ∧
    (if b.isWrite op then b.chooseWriteNode (atomicLong s.writeCount)
      else b.chooseReadNode (atomicLong s.readCount)) < b.nodes := by
  have counted := h.counted
  split
  · exact chooseWriteNode_range (by omega)
  · exact chooseReadNode_range (by omega)

theorem Tallies.advance (h : Tallies b s) (stepped : s.advanceStep b t = some s') :
    Tallies b s' := by
  unfold TraceState.advanceStep at stepped
  split at stepped
  · next op here =>
    have left : (standing TracePc.uncounted (Function.update s.pc t (.tallied op))).card + 1 =
        (standing TracePc.uncounted s.pc).card := card_standing_leave (by rw [here]; rfl) rfl
    have counted := h.counted
    have kept : ∀ op', (s.pc t).op = some op' →
        (TracePc.tallied op).op = some op' ∨ ∃ ok, (op', ok) ∈ s.returned := by
      rw [here]
      exact fun op' same => Or.inl same
    split at stepped <;> obtain rfl := Option.some.inj stepped <;>
      refine ⟨?_, h.covered.moved rfl ⟨rfl, rfl⟩ (fun r member => member) kept,
        fun small => (h.valid small).moved rfl (h.valid small).ok (by simp)⟩ <;>
      simp only [TraceState.setPc] <;> omega
  · next op here =>
    obtain rfl := Option.some.inj stepped
    refine ⟨?_, h.covered.moved rfl ⟨rfl, rfl⟩ (fun r member => member) ?_,
      fun small => (h.valid small).moved rfl (h.valid small).ok ?_⟩
    · simp only [TraceState.setPc]
      rw [standing_same (by rw [here]; rfl)]
      exact h.counted
    · rw [here]
      exact fun op' same => Or.inl same
    · intro op' node same
      cases same
      exact h.choose op small
  · next op node here =>
    split at stepped
    · next invalid =>
      obtain rfl := Option.some.inj stepped
      refine h.moved rfl ⟨rfl, rfl⟩ ⟨rfl, rfl⟩ (by rw [here]; rfl)
        (fun r member => List.mem_append_left _ member) ?_ ?_ (by simp)
      · rw [here]
        intro op' same
        obtain rfl := Option.some.inj same
        exact Or.inr ⟨false, List.mem_append_right _ (List.mem_singleton.mpr rfl)⟩
      · intro small
        obtain ⟨nonneg, lt⟩ := (h.valid small).chosen t op node here
        omega
    · split at stepped
      · cases stepped
      · obtain rfl := Option.some.inj stepped
        exact h.moved rfl ⟨rfl, rfl⟩ ⟨rfl, rfl⟩ (by rw [here]; rfl) (fun r member => member)
          (by rw [here]; exact fun op same => Or.inl same) (fun small => (h.valid small).ok)
          (by simp)
  · next op node here =>
    split at stepped
    · cases stepped
    · obtain rfl := Option.some.inj stepped
      exact h.moved rfl ⟨rfl, rfl⟩ ⟨rfl, rfl⟩ (by rw [here]; rfl) (fun r member => member)
        (by rw [here]; exact fun op same => Or.inl same) (fun small => (h.valid small).ok) (by simp)
  · next op node ts here =>
    obtain rfl := Option.some.inj stepped
    exact h.moved rfl ⟨rfl, rfl⟩ ⟨rfl, rfl⟩ (by rw [here]; rfl) (fun r member => member)
      (by rw [here]; exact fun op same => Or.inl same) (fun small => (h.valid small).ok) (by simp)
  · next op node ts count here =>
    split at stepped
    · obtain rfl := Option.some.inj stepped
      exact h.moved rfl ⟨rfl, rfl⟩ ⟨rfl, rfl⟩ (by rw [here]; rfl) (fun r member => member)
        (by rw [here]; exact fun op same => Or.inl same) (fun small => (h.valid small).ok) (by simp)
    · obtain rfl := Option.some.inj stepped
      refine h.moved rfl ⟨rfl, rfl⟩ ⟨rfl, rfl⟩ (by rw [here]; rfl)
        (fun r member => List.mem_append_left _ member) ?_ ?_ (by simp)
      · rw [here]
        intro op' same
        obtain rfl := Option.some.inj same
        exact Or.inr ⟨true, List.mem_append_right _ (List.mem_singleton.mpr rfl)⟩
      · intro small r member
        rcases List.mem_append.mp member with old | last
        · exact (h.valid small).ok r old
        · rw [List.mem_singleton.mp last]
  · cases stepped

theorem Tallies.step (h : Tallies b s) {a : TraceAction T} (stepped : s.step b a = some s') :
    Tallies b s' := by
  cases a with
  | init t => exact h.init stepped
  | cleanup t => exact h.cleanup stepped
  | begin t call => exact h.begin stepped
  | advance t => exact h.advance stepped
  | draw t floored => exact h.draw stepped

theorem tallies_of_reachable (reached : (traceThreads T b).Reachable s) : Tallies b s := by
  refine reached.invariant ?_ fun s a s' _ h stepped => h.step stepped
  rintro s ⟨-, -, ops, reads, writes, -, -, -, outside, -, -, returned⟩
  have empty : standing TracePc.uncounted s.pc = ∅ := by
    simp [standing, outside, TracePc.uncounted]
  refine ⟨?_, ?_, fun _ => ⟨?_, ?_⟩⟩
  · rw [ops, reads, writes, empty, Finset.card_empty]
  · intro k after before
    rw [ops] at before
    exact absurd before (Nat.not_lt_zero k)
  · intro r member
    rw [returned] at member
    cases member
  · intro t op node here
    rw [outside] at here
    cases here

end

end BandleCxl.Invariant
