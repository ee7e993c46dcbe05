import BandleCxl.Invariant.Histogram

/-!
Which values a bucket holds. A bucket is an exponent and one of sixteen parts of the range
between two powers of two. Below exponent 4 there are more parts than values, and at
exponent 63 the width is that of a range one too short, so the last part is wider.
-/
namespace BandleCxl.Invariant
open Library Source LatencyHistogram

/-! ### Width of a bucket -/

def bucketWidth (exp : Nat) : Nat :=
  if exp < 4 then 1 else if exp = 63 then 2 ^ 59 - 1 else 2 ^ (exp - 4)

theorem bucketWidth_small {exp : Nat} (small : exp < 4) : bucketWidth exp = 1 := if_pos small

theorem bucketWidth_top : bucketWidth 63 = 2 ^ 59 - 1 := rfl

/-- Sixteen parts fill the range exactly. -/
theorem bucketWidth_fills {exp : Nat} (large : 4 ≤ exp) (below : exp < 63) :
    16 * bucketWidth exp = 2 ^ exp := by
  rw [bucketWidth, if_neg (by omega), if_neg (by omega)]
  have split : exp = 4 + (exp - 4) := by omega
  calc 16 * 2 ^ (exp - 4) = 2 ^ (4 + (exp - 4)) := by rw [Nat.pow_add]
    _ = 2 ^ exp := by rw [← split]

theorem bucketWidth_pos (exp : Nat) : 0 < bucketWidth exp := by
  unfold bucketWidth
  split
  · decide
  · split
    · decide
    · exact Nat.two_pow_pos _

/-- The width as both functions compute it, from the exponent. -/
theorem width_eq {exp : Nat} (range : exp ≤ 63) :
    let next := if exp = MAX_EXP then 2 ^ 64 - 1 else 2 ^ exp <<< 1
    let width := if next > 2 ^ exp then (next - 2 ^ exp) / SUB_BUCKETS else 1
    (if width = 0 then 1 else width) = bucketWidth exp := by
  have limit : MAX_EXP = 63 := rfl
  have parts : SUB_BUCKETS = 16 := rfl
  rcases Nat.lt_or_ge exp 4 with small | large
  · interval_cases exp <;> rfl
  · rcases Nat.lt_or_ge exp 63 with below | top
    · have fills := bucketWidth_fills large below
      have pos := bucketWidth_pos exp
      intro next width
      have twice : next = 2 * 2 ^ exp := by
        simp only [next, if_neg (show ¬exp = MAX_EXP by omega), Nat.shiftLeft_eq]
        exact Nat.mul_comm _ _
      have width_eq : width = bucketWidth exp := by
        simp only [width, twice, parts, ← fills]
        rw [if_pos (by omega), Nat.two_mul, Nat.add_sub_cancel, Nat.mul_div_cancel_left _ (by decide)]
      rw [width_eq, if_neg (by omega)]
    · obtain rfl : exp = 63 := by omega
      rfl

/-- The parts of a range never reach past 64 bits. -/
theorem part_lt {exp sub : Nat} (range : exp ≤ 63) (part : sub < 16) :
    2 ^ exp + sub * bucketWidth exp < 2 ^ 64 := by
  have step : sub * bucketWidth exp ≤ 15 * bucketWidth exp :=
    Nat.mul_le_mul_right _ (Nat.le_of_lt_succ part)
  rcases Nat.lt_or_ge exp 4 with small | large
  · rw [bucketWidth_small small] at step ⊢
    have power : 2 ^ exp ≤ 2 ^ 4 := Nat.pow_le_pow_right (by decide) (by omega)
    omega
  · rcases Nat.lt_or_ge exp 63 with below | top
    · have fills := bucketWidth_fills large below
      have power : 2 ^ exp ≤ 2 ^ 62 := Nat.pow_le_pow_right (by decide) (by omega)
      omega
    · obtain rfl : exp = 63 := by omega
      rw [bucketWidth_top] at step ⊢
      omega

/-! ### Lower end of a bucket -/

theorem ofInt_natCast_toNat {n : Nat} (small : n < 2 ^ 64) : (UInt64.ofInt n).toNat = n := by
  have cast : ((n : Int) % 2 ^ 64).toNat = n := by omega
  rw [UInt64.ofInt, cast, UInt64.toNat_ofNat_of_lt' small]

theorem bucketLowerValue_toNat {exp sub : Nat} (range : exp ≤ 63) (part : sub < 16)
    (positive : 0 < exp * 16 + sub) :
    (bucketLowerValue ((exp * 16 + sub : Nat) : Int)).toNat = 2 ^ exp + sub * bucketWidth exp := by
  have limit : MAX_EXP = 63 := rfl
  have parts : SUB_BUCKETS = 16 := rfl
  have exponent : ((exp * 16 + sub : Nat) : Int).tdiv SUB_BUCKETS = exp := by
    rw [Int.tdiv_eq_ediv_of_nonneg (by omega), parts]
    omega
  have rest : ((exp * 16 + sub : Nat) : Int).tmod SUB_BUCKETS = sub := by
    rw [Int.tmod_eq_emod_of_nonneg (by omega), parts]
    omega
  unfold bucketLowerValue
  rw [if_neg (by omega), exponent, rest]
  dsimp only
  rw [if_neg (show ¬(exp : Int) < 0 by omega), if_neg (show ¬(exp : Int) > MAX_EXP by omega)]
  simp only [Int.toNat_natCast, Int.natCast_eq_zero, Nat.cast_inj]
  have base := base_toNat range
  rw [base_eq_pow] at base
  generalize (if exp = 0 then (1 : UInt64) else 1 <<< UInt64.ofNat exp) = b at base ⊢
  have next := next_toNat range base
  generalize (if exp = MAX_EXP then (18446744073709551615 : UInt64) else b <<< 1) = n at next ⊢
  rw [base] at next
  have width := width_toNat b n
  rw [next, base] at width
  replace width := width.trans (width_eq range)
  generalize (if (if n > b then (n - b) / UInt64.ofNat SUB_BUCKETS else 1) = 0 then (1 : UInt64)
    else if n > b then (n - b) / UInt64.ofNat SUB_BUCKETS else 1) = w at width ⊢
  have fits := part_lt range part
  rw [UInt64.toNat_add, UInt64.toNat_mul, width, base, ofInt_natCast_toNat (by omega),
    Nat.mod_eq_of_lt (a := sub * bucketWidth exp) (by omega), Nat.mod_eq_of_lt fits]

/-! ### Bucket of a value -/

/-- Where a value lies among the parts of its range. -/
structure Located (value exp sub : Nat) : Prop where
  exponent : exp ≤ 63
  part : sub < 16
  least : 2 ^ exp + sub * bucketWidth exp ≤ value
  below : value < 2 ^ (exp + 1)
  next : sub < 15 → value < 2 ^ exp + (sub + 1) * bucketWidth exp

theorem located_clamp {value exp : Nat} (range : exp ≤ 63) (least : 2 ^ exp ≤ value)
    (below : value < 2 ^ (exp + 1)) :
    let sub := (value - 2 ^ exp) / bucketWidth exp
    Located value exp (if sub ≥ 16 then 15 else sub) := by
  intro sub
  have floor : sub * bucketWidth exp ≤ value - 2 ^ exp := Nat.div_mul_le_self _ _
  have ceiling : value - 2 ^ exp < (sub + 1) * bucketWidth exp := by
    rw [Nat.mul_comm]
    exact Nat.lt_mul_div_succ _ (bucketWidth_pos exp)
  by_cases clamped : sub ≥ 16
  · have step : 15 * bucketWidth exp ≤ sub * bucketWidth exp := Nat.mul_le_mul_right _ (by omega)
    rw [if_pos clamped]
    exact ⟨range, by decide, by omega, below, fun last => absurd last (by decide)⟩
  · rw [if_neg clamped]
    exact ⟨range, by omega, by omega, below, fun _ => by omega⟩

/-- Every value but 0 is located by its bucket. -/
theorem indexFor_located {value : UInt64} (nonzero : value ≠ 0) :
    ∃ exp sub, Located value.toNat exp sub ∧ indexFor value = ((exp * 16 + sub : Nat) : Int) := by
  have limit : MAX_EXP = 63 := rfl
  have parts : SUB_BUCKETS = 16 := rfl
  have positive : value.toNat ≠ 0 := fun eq => nonzero (UInt64.toNat_inj.mp eq)
  have range : value.toNat.log2 ≤ 63 :=
    Nat.le_of_lt_succ ((Nat.log2_lt positive).mpr value.toNat_lt)
  have least : 2 ^ value.toNat.log2 ≤ value.toNat := Nat.log2_self_le positive
  have located := located_clamp range least Nat.lt_log2_self
  refine ⟨_, _, located, ?_⟩
  have width := width_eq range
  dsimp only at width
  rw [indexFor_eq, histogramIndexFor, if_neg positive,
    if_neg (show ¬value.toNat.log2 > MAX_EXP by omega)]
  dsimp only
  have offset : (if value.toNat ≤ 2 ^ value.toNat.log2 then 0
      else value.toNat - 2 ^ value.toNat.log2) = value.toNat - 2 ^ value.toNat.log2 := by
    split <;> omega
  rw [base_eq_pow, width, parts, offset]

theorem indexFor_zero : indexFor 0 = 0 := rfl

theorem indexFor_nonneg (value : UInt64) : 0 ≤ indexFor value := by
  rw [indexFor_eq]
  exact Int.natCast_nonneg _

theorem bucketOf_val (value : UInt64) : ((bucketOf value : Nat) : Int) = indexFor value :=
  Int.toNat_of_nonneg (indexFor_nonneg value)

namespace Located

variable {value value' exp exp' sub sub' : Nat}

theorem least_pow (place : Located value exp sub) : 2 ^ exp ≤ value :=
  Nat.le_trans (Nat.le_add_right _ _) place.least

theorem exponent_le (place : Located value exp sub) (place' : Located value' exp' sub')
    (le : value ≤ value') : exp ≤ exp' := by
  have power : 2 ^ exp < 2 ^ (exp' + 1) :=
    Nat.lt_of_le_of_lt place.least_pow (Nat.lt_of_le_of_lt le place'.below)
  exact Nat.le_of_lt_succ ((Nat.pow_lt_pow_iff_right (by decide)).mp power)

theorem index_le (place : Located value exp sub) (place' : Located value' exp' sub')
    (le : value ≤ value') : exp * 16 + sub ≤ exp' * 16 + sub' := by
  have part := place.part
  rcases Nat.lt_or_eq_of_le (place.exponent_le place' le) with smaller | rfl
  · omega
  · by_contra reversed
    have before : sub' + 1 ≤ sub := by omega
    have bound := place'.next (by omega)
    have step := Nat.mul_le_mul_right (bucketWidth exp) before
    have least := place.least
    omega

/-- A range that its parts fill leaves nothing past the last part. -/
theorem lt_next (place : Located value exp sub) (large : 4 ≤ exp) (low : exp < 63) :
    value < 2 ^ exp + (sub + 1) * bucketWidth exp := by
  by_cases last : sub < 15
  · exact place.next last
  · have part := place.part
    obtain rfl : sub = 15 := by omega
    have fills := bucketWidth_fills large low
    have below := place.below
    rw [Nat.pow_succ] at below
    omega

/-- Below exponent 4 a part is a single value. -/
theorem eq_least (place : Located value exp sub) (small : exp < 4) :
    value = 2 ^ exp + sub * bucketWidth exp := by
  have power : 2 ^ exp ≤ 2 ^ 3 := Nat.pow_le_pow_right (by decide) (by omega)
  have below := place.below
  have least := place.least
  have next := place.next
  rw [Nat.pow_succ] at below
  rw [bucketWidth_small small] at least next ⊢
  omega

end Located

/-- A larger value is in no earlier bucket. -/
theorem indexFor_mono {value value' : UInt64} (le : value ≤ value') :
    indexFor value ≤ indexFor value' := by
  by_cases zero : value = 0
  · rw [zero, indexFor_zero]
    exact indexFor_nonneg value'
  · have zero' : value' ≠ 0 := by
      rintro rfl
      exact zero (UInt64.le_zero_iff.mp le)
    obtain ⟨exp, sub, located, index⟩ := indexFor_located zero
    obtain ⟨exp', sub', located', index'⟩ := indexFor_located zero'
    rw [index, index']
    exact Int.ofNat_le.mpr (located.index_le located' (UInt64.le_iff_toNat_le.mp le))

theorem bucketOf_mono (value value' : UInt64) (le : value ≤ value') :
    bucketOf value ≤ bucketOf value' :=
  Int.toNat_le_toNat (indexFor_mono le)

/-! ### Distance from the lower end -/

/-- The bucket of 0 and 1 starts at 0, every other one at its part. -/
theorem bucketLower_cases (value : UInt64) :
    (indexFor value = 0 ∧ value.toNat ≤ 1 ∧ (bucketLowerValue (indexFor value)).toNat = 0) ∨
      ∃ exp sub, 0 < exp * 16 + sub ∧ Located value.toNat exp sub ∧
        indexFor value = ((exp * 16 + sub : Nat) : Int) ∧
        (bucketLowerValue (indexFor value)).toNat = 2 ^ exp + sub * bucketWidth exp := by
  by_cases zero : value = 0
  · subst zero
    exact Or.inl ⟨rfl, by decide, rfl⟩
  · obtain ⟨exp, sub, located, index⟩ := indexFor_located zero
    rcases Nat.eq_zero_or_pos (exp * 16 + sub) with first | positive
    · obtain ⟨rfl, rfl⟩ : exp = 0 ∧ sub = 0 := by omega
      have single := located.eq_least (by decide)
      rw [index]
      exact Or.inl ⟨rfl, Nat.le_of_eq single, rfl⟩
    · refine Or.inr ⟨exp, sub, positive, located, index, ?_⟩
      rw [index]
      exact bucketLowerValue_toNat located.exponent located.part positive

theorem bucketLower_le (value : UInt64) :
    (bucketLowerValue (indexFor value)).toNat ≤ value.toNat := by
  rcases bucketLower_cases value with ⟨_, _, lower⟩ | ⟨exp, sub, _, located, _, lower⟩
  · omega
  · rw [lower]
    exact located.least

/-- No value is more than a sixteenth above the lower end of its bucket. -/
theorem Located.le_sixteenth {value exp sub : Nat} (place : Located value exp sub) :
    let r := 2 ^ exp + sub * bucketWidth exp
    value ≤ r + max 1 (r / 16) := by
  intro r
  rcases Nat.lt_or_ge exp 4 with small | large
  · exact Nat.le_trans (Nat.le_of_eq (place.eq_least small)) (Nat.le_add_right _ _)
  · have exponent := place.exponent
    have part := place.part
    rcases Nat.lt_or_ge exp 63 with below | top
    · have next := place.lt_next large below
      have fills := bucketWidth_fills large below
      have sixteenth : bucketWidth exp ≤ r / 16 := by
        refine (Nat.le_div_iff_mul_le (by decide)).mpr ?_
        rw [Nat.mul_comm, fills]
        exact Nat.le_add_right _ _
      rw [Nat.add_mul] at next
      omega
    · obtain rfl : exp = 63 := by omega
      have below := place.below
      have next := place.next
      have base : 2 ^ 63 ≤ r := Nat.le_add_right _ _
      by_cases last : sub < 15
      · have next := next last
        rw [Nat.add_mul, bucketWidth_top] at next
        have : r = 2 ^ 63 + sub * (2 ^ 59 - 1) := rfl
        omega
      · obtain rfl : sub = 15 := by omega
        have : r = 2 ^ 63 + 15 * (2 ^ 59 - 1) := rfl
        omega

theorem le_bucketLower_add (value : UInt64) :
    let r := (bucketLowerValue (indexFor value)).toNat
    value.toNat ≤ r + max 1 (r / 16) := by
  rcases bucketLower_cases value with ⟨_, small, lower⟩ | ⟨exp, sub, _, located, _, lower⟩
  · rw [lower]
    omega
  · rw [lower]
    exact located.le_sixteenth

end BandleCxl.Invariant
