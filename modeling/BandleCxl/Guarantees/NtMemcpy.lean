import BandleCxl.Source.CxlMemory

/-!
What `nt_memcpy` does to memory. It copies the range and also clears the rest of the last
eight-byte word, wherever the range lies and whichever loops run.
-/
namespace BandleCxl.Guarantees
open Library Source

/-- The bytes from a length up to a multiple of eight. -/
def wordPad (len : Nat) : Nat := (8 - len % 8) % 8

/-- The range copied and the bytes up to the end of its last word cleared. -/
def copiedWords (mem : Mem) (dst src len : Nat) : Mem :=
  (mem.copyRange dst src len).store (dst + len) (List.replicate (wordPad len) 0)

theorem copiedWords_inside (mem : Mem) (dst src : Nat) {len i : Nat} (inside : i < len) :
    copiedWords mem dst src len (dst + i) = mem (src + i) := by
  rw [copiedWords, Mem.store_outside (by omega), Mem.copyRange_inside mem dst src inside]

theorem copiedWords_pad (mem : Mem) (dst src : Nat) {len i : Nat} (inside : i < wordPad len) :
    copiedWords mem dst src len (dst + len + i) = 0 := by
  rw [copiedWords, Mem.store_inside (by rw [List.length_replicate]; exact inside)]
  simp [inside]

theorem copiedWords_outside (mem : Mem) {dst src len a : Nat}
    (outside : a < dst ∨ dst + len + wordPad len ≤ a) : copiedWords mem dst src len a = mem a := by
  rw [copiedWords, Mem.store_outside (by rw [List.length_replicate]; omega),
    Mem.copyRange_outside mem (by omega)]

theorem copiedWords_whole (mem : Mem) (dst src : Nat) {len : Nat} (whole : 8 ∣ len) :
    copiedWords mem dst src len = mem.copyRange dst src len := by
  have none : wordPad len = 0 := by
    unfold wordPad
    omega
  rw [copiedWords, none, List.replicate_zero, Mem.store_nil]

section
variable (mem : Mem) {dst src len : Nat}

/-- The loops after the first `k` bytes. -/
def copiedTo (mem : Mem) (dst src len k : Nat) : NtMemcpy :=
  { mem := mem.copyRange dst src k, d := dst + k, s := src + k, len := len - k }

/-- The loops after a last word that was not full. -/
def copiedAll (mem : Mem) (dst src len : Nat) : NtMemcpy :=
  { mem := copiedWords mem dst src len, d := dst + len, s := src + len, len := 0 }

variable (disjoint : src + len ≤ dst ∨ dst + len ≤ src)
include disjoint

/-- A last word that is not full. -/
theorem store_paddedWord {k : Nat} (whole : 8 ∣ k) (short : k < len) (last : len - k < 8) :
    mmStreamSi64 (mem.copyRange dst src k) (dst + k)
        (paddedWord (mem.copyRange dst src k) (src + k) (len - k)) = copiedWords mem dst src len := by
  have rest : k + (len - k) = len := by omega
  have pad : 8 - (len - k) = wordPad len := by
    unfold wordPad
    omega
  rw [mmStreamSi64, paddedWord, Mem.copyRange_step mem disjoint (by omega), rest, pad, copiedWords]

theorem store_fullWord {k : Nat} (room : k + 8 ≤ len) :
    mmStreamSi64 (mem.copyRange dst src k) (dst + k) (paddedWord (mem.copyRange dst src k) (src + k) 8) =
      mem.copyRange dst src (k + 8) := by
  rw [mmStreamSi64, paddedWord, List.replicate_zero, List.append_nil,
    Mem.copyRange_advance mem disjoint room]

/-- The first loop stops at an aligned word, or at the end. -/
theorem alignLoop_copiedTo {k : Nat} (whole : 8 ∣ k) (short : k ≤ len) :
    (∃ k', 8 ∣ k' ∧ k' ≤ len ∧ (len - k' = 0 ∨ (dst + k') % 64 = 0) ∧
      (copiedTo mem dst src len k).alignLoop = copiedTo mem dst src len k') ∨
    (copiedTo mem dst src len k).alignLoop = copiedAll mem dst src len := by
  induction left : len - k using Nat.strong_induction_on generalizing k with
  | _ n ih =>
    subst left
    rw [NtMemcpy.alignLoop]
    by_cases more : (copiedTo mem dst src len k).len > 0 ∧ (copiedTo mem dst src len k).d &&& 63 ≠ 0
    · rw [if_pos more]
      replace more : len - k > 0 ∧ _ := more
      rcases Nat.lt_or_ge (len - k) 8 with last | full
      · right
        have size : min 8 (copiedTo mem dst src len k).len = len - k :=
          Nat.min_eq_right (Nat.le_of_lt last)
        have ends : ∀ a, a + k + (len - k) = a + len := by omega
        rw [size]
        simp only [copiedTo]
        rw [store_paddedWord mem disjoint whole (by omega) last, Nat.sub_self, ends, ends,
          NtMemcpy.alignLoop, if_neg (by simp)]
        rfl
      · have size : min 8 (copiedTo mem dst src len k).len = 8 := Nat.min_eq_left full
        rw [size]
        simp only [copiedTo]
        rw [store_fullWord mem disjoint (by omega), Nat.add_assoc, Nat.add_assoc, Nat.sub_sub]
        exact ih (len - (k + 8)) (by omega) (by omega) (by omega) rfl
    · left
      rw [if_neg more]
      refine ⟨k, whole, short, ?_, rfl⟩
      have mask : (dst + k) &&& 63 = (dst + k) % 64 := Nat.and_two_pow_sub_one_eq_mod (dst + k) 6
      simp only [copiedTo, mask] at more
      omega

/-- The second loop only stores at aligned addresses and never faults. -/
theorem lineLoop_copiedTo {k : Nat} (whole : 8 ∣ k) (short : k ≤ len)
    (aligned : len - k = 0 ∨ (dst + k) % 64 = 0) :
    ∃ k', 8 ∣ k' ∧ k' ≤ len ∧
      (copiedTo mem dst src len k).lineLoop = some (copiedTo mem dst src len k') := by
  induction left : len - k using Nat.strong_induction_on generalizing k with
  | _ n ih =>
    subst left
    rw [NtMemcpy.lineLoop]
    by_cases more : len - k ≥ 64
    · have place : (dst + k) % 64 = 0 := by omega
      have stored : mm512StreamSi512 (mem.copyRange dst src k) (dst + k)
          ((mem.copyRange dst src k).load (src + k) 64) = some (mem.copyRange dst src (k + 64)) := by
        rw [mm512StreamSi512, if_pos place, Mem.copyRange_advance mem disjoint (by omega)]
      rw [if_pos (show (copiedTo mem dst src len k).len ≥ 64 from more)]
      simp only [copiedTo]
      rw [stored, Option.bind_eq_bind, Option.bind_some, Nat.add_assoc, Nat.add_assoc, Nat.sub_sub]
      exact ih (len - (k + 64)) (by omega) (by omega) (by omega) (by omega) rfl
    · rw [if_neg (show ¬(copiedTo mem dst src len k).len ≥ 64 from more)]
      exact ⟨k, whole, short, rfl⟩

theorem tailLoop_copied {k i : Nat} (short : k + i ≤ len) :
    tailLoop (dst + k) (src + k) (len - k) i (mem.copyRange dst src (k + i)) =
      (mem.copyRange dst src (k + (i + (len - k - i) / 8 * 8)), i + (len - k - i) / 8 * 8) := by
  induction left : len - k - i using Nat.strong_induction_on generalizing i with
  | _ n ih =>
    subst left
    rw [tailLoop]
    by_cases more : i + 8 ≤ len - k
    · have blocks : i + 8 + (len - k - (i + 8)) / 8 * 8 = i + (len - k - i) / 8 * 8 := by omega
      rw [if_pos more, mmStreamSi64, Nat.add_assoc, Nat.add_assoc,
        Mem.copyRange_advance mem disjoint (by omega), Nat.add_assoc,
        ih (len - k - (i + 8)) (by omega) (by omega) rfl, blocks]
    · have none : (len - k - i) / 8 = 0 := by omega
      rw [if_neg more, none, Nat.zero_mul, Nat.add_zero]

/-- The tail finishes what the loops have left. -/
theorem tail_copiedTo {k : Nat} (whole : 8 ∣ k) (short : k ≤ len) :
    ntMemcpyTailNt64 (mem.copyRange dst src k) (dst + k) (src + k) (len - k) =
      copiedWords mem dst src len := by
  have loop : tailLoop (dst + k) (src + k) (len - k) 0 (mem.copyRange dst src k) = _ :=
    tailLoop_copied mem disjoint short
  rw [ntMemcpyTailNt64, loop]
  dsimp only
  have done : 8 ∣ k + (0 + (len - k - 0) / 8 * 8) := by omega
  have left : len - k - (0 + (len - k - 0) / 8 * 8) = len - (k + (0 + (len - k - 0) / 8 * 8)) := by
    omega
  split
  · next last =>
    rw [Nat.add_assoc, Nat.add_assoc, left]
    exact store_paddedWord mem disjoint done (by omega) (by omega)
  · next none =>
    have all : k + (0 + (len - k - 0) / 8 * 8) = len := by omega
    rw [all] at done ⊢
    exact (copiedWords_whole mem dst src done).symm

omit disjoint in
theorem copiedTo_zero : copiedTo mem dst src len 0 = { mem, d := dst, s := src, len } := by
  rw [copiedTo, Mem.copyRange_zero]
  rfl

omit disjoint in
/-- Nothing is left to do after a last word. -/
theorem lineLoop_copiedAll :
    (copiedAll mem dst src len).lineLoop = some (copiedAll mem dst src len) := by
  rw [NtMemcpy.lineLoop, if_neg (by simp [copiedAll])]

omit disjoint in
theorem tail_nothing (dd ss : Nat) : ntMemcpyTailNt64 mem dd ss 0 = mem := by
  rw [ntMemcpyTailNt64, tailLoop]
  rfl

/-- The loops and the tail together. -/
theorem avx512_then_tail :
    ∃ c, NtMemcpy.avx512 { mem, d := dst, s := src, len } = some c ∧
      ntMemcpyTailNt64 c.mem c.d c.s c.len = copiedWords mem dst src len := by
  rw [← copiedTo_zero, NtMemcpy.avx512]
  split
  · exact ⟨_, rfl, tail_copiedTo mem disjoint (by omega) (by omega)⟩
  · rcases alignLoop_copiedTo mem disjoint (k := 0) (by omega) (by omega) with
      ⟨k, whole, short, aligned, reached⟩ | finished
    · obtain ⟨k', whole', short', lines⟩ := lineLoop_copiedTo mem disjoint whole short aligned
      rw [reached]
      exact ⟨_, lines, tail_copiedTo mem disjoint whole' short'⟩
    · rw [finished]
      exact ⟨_, lineLoop_copiedAll mem, tail_nothing _ _ _⟩

/-- Both sides of the `#if` end without a fault and leave the same memory. -/
theorem ntMemcpy_eq (x86 : Bool) :
    ntMemcpy x86 mem dst src len = some (copiedWords mem dst src len) := by
  unfold ntMemcpy
  split
  · next empty => rw [empty, copiedWords_whole mem dst src (by omega), Mem.copyRange_zero]
  · cases x86 with
    | false =>
      have tail := tail_copiedTo mem disjoint (k := 0) (by omega) (by omega)
      rw [Mem.copyRange_zero] at tail
      rw [if_neg (by decide)]
      exact congrArg some tail
    | true =>
      obtain ⟨c, loops, tail⟩ := avx512_then_tail mem disjoint
      rw [if_pos rfl, loops, Option.bind_eq_bind, Option.bind_some, tail]

end

/-- The call ends, the range is copied and nothing else changes. -/
def PlainCopy (x86 : Bool) (mem : Mem) (dst src len : Nat) : Prop :=
  ∃ after, ntMemcpy x86 mem dst src len = some after ∧
    (∀ i < len, after (dst + i) = mem (src + i)) ∧
    ∀ a, a < dst ∨ dst + len ≤ a → after a = mem a

/-- The copy is plain just when the bytes that share the last word with the range are zero
already, of which there are none if the length is a multiple of eight. -/
theorem plainCopy_iff (x86 : Bool) (mem : Mem) (dst src len : Nat)
    (disjoint : src + len ≤ dst ∨ dst + len ≤ src) :
    PlainCopy x86 mem dst src len ↔
      len % 8 = 0 ∨ ∀ a, dst + len ≤ a → a < dst + (len + 7) / 8 * 8 → mem a = 0 := by
  have pad : len + wordPad len = (len + 7) / 8 * 8 := by
    unfold wordPad
    omega
  constructor
  · rintro ⟨after, copied, -, same⟩
    obtain rfl : copiedWords mem dst src len = after :=
      Option.some.inj ((ntMemcpy_eq mem disjoint x86).symm.trans copied)
    right
    intro a beyond within
    obtain ⟨i, rfl⟩ : ∃ i, a = dst + len + i := ⟨a - (dst + len), by omega⟩
    rw [← same _ (Or.inr beyond), copiedWords_pad mem dst src (by omega)]
  · intro clear
    refine ⟨_, ntMemcpy_eq mem disjoint x86, fun i inside => copiedWords_inside mem dst src inside, ?_⟩
    intro a outside
    by_cases within : dst + len ≤ a ∧ a < dst + (len + 7) / 8 * 8
    · obtain ⟨i, rfl⟩ : ∃ i, a = dst + len + i := ⟨a - (dst + len), by omega⟩
      rw [copiedWords_pad mem dst src (by omega)]
      rcases clear with whole | zero
      · omega
      · exact (zero _ within.1 within.2).symm
    · exact copiedWords_outside mem (by omega)

theorem copy_of_65_words_plain : PlainCopy true (fun _ => 255) 0 1000 520 :=
  (plainCopy_iff true (fun _ => 255) 0 1000 520 (by decide)).mpr (Or.inl (by decide))

/-- Copying one byte clears seven bytes behind it. -/
theorem copy_of_one_byte_not_plain : ¬PlainCopy true (fun _ => 255) 0 1000 1 := by
  rintro ⟨after, copied, -, same⟩
  obtain rfl : copiedWords (fun _ => 255) 0 1000 1 = after :=
    Option.some.inj ((ntMemcpy_eq _ (by decide) true).symm.trans copied)
  have cleared : (0 : UInt8) = 255 :=
    (copiedWords_pad (fun _ => 255) 0 1000 (i := 0) (by decide)).symm.trans (same 1 (by decide))
  exact absurd cleared (by decide)

end BandleCxl.Guarantees
