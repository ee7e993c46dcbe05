import BandleCxl.Invariant.Buckets
import BandleCxl.Source.Aggregate

/-!
The ends of a bucket in `bandle_aggregate`. Every bucket but the last brackets its samples;
the upper end of the last one is shifted out of 64 bits.
-/
namespace BandleCxl.Guarantees
open Source Invariant LatencyHistogram

theorem bucketUpperValue_of_lt {idx : Int} (inside : idx + 1 < BUCKETS) :
    bucketUpperValue idx = bucketLowerValue (idx + 1) := if_pos inside

/-- The upper end of every bucket but the last is above its samples. -/
theorem lt_bucketUpper {value : UInt64} (inside : indexFor value + 1 < BUCKETS) :
    value.toNat < (bucketUpperValue (indexFor value)).toNat := by
  have buckets : BUCKETS = 1024 := rfl
  rw [bucketUpperValue_of_lt inside]
  rcases bucketLower_cases value with ⟨index, small, _⟩ | ⟨exp, sub, _, located, index, _⟩
  · rw [index]
    exact Nat.lt_succ_of_le small
  · rw [index] at inside ⊢
    have part := located.part
    have next : ((exp * 16 + sub : Nat) : Int) + 1 = ((exp * 16 + sub + 1 : Nat) : Int) := rfl
    rw [next]
    by_cases last : sub < 15
    · rw [Nat.add_assoc, bucketLowerValue_toNat located.exponent (by omega) (by omega)]
      exact located.next last
    · -- The bucket after the last part starts at the next power of two.
      have carry : exp * 16 + sub + 1 = (exp + 1) * 16 + 0 := by omega
      rw [carry, bucketLowerValue_toNat (by omega) (by decide) (by omega), Nat.zero_mul, Nat.add_zero]
      exact located.below

/-- The last bucket starts at `2 ^ 63 + 15 * (2 ^ 59 - 1)`. -/
theorem lastBucket_iff (value : UInt64) :
    indexFor value + 1 < BUCKETS ↔ value.toNat < 2 ^ 63 + 15 * (2 ^ 59 - 1) := by
  have buckets : BUCKETS = 1024 := rfl
  rcases bucketLower_cases value with ⟨index, small, _⟩ | ⟨exp, sub, _, located, index, _⟩
  · rw [index, buckets]
    omega
  · have exponent := located.exponent
    have part := located.part
    have least := located.least
    have next := located.next
    have below := located.below
    rw [index, buckets]
    rcases Nat.lt_or_ge exp 63 with low | top
    · have power : 2 ^ (exp + 1) ≤ 2 ^ 63 := Nat.pow_le_pow_right (by decide) (by omega)
      omega
    · obtain rfl : exp = 63 := by omega
      rw [bucketWidth_top] at least next
      by_cases last : sub < 15
      · have step : (sub + 1) * (2 ^ 59 - 1) ≤ 15 * (2 ^ 59 - 1) := Nat.mul_le_mul_right _ last
        have next := next last
        omega
      · obtain rfl : sub = 15 := by omega
        omega

/-- Shifted by one the last lower end loses its leading bit. -/
theorem bucketUpperValue_last : (bucketUpperValue 1023).toNat = 30 * (2 ^ 59 - 1) := by
  decide

/-- The midpoint of ordered ends is between them, however sums are rounded. -/
theorem midpoint_between (fp : LongDouble) {lo hi : UInt64} (ordered : lo.toNat ≤ hi.toNat) :
    lo.toNat ≤ fp.midpoint lo hi ∧ fp.midpoint lo hi ≤ hi.toNat := by
  have ends : (lo.toNat : ℚ) ≤ hi.toNat := Nat.cast_le.mpr ordered
  rw [LongDouble.midpoint, fp.exact_u64, fp.exact_u64]
  constructor
  · have sum := fp.monotone (show 2 * (lo.toNat : ℚ) ≤ lo.toNat + hi.toNat by linarith)
    rw [fp.exact_twice] at sum
    rw [← fp.exact_u64 lo]
    apply fp.monotone
    rw [fp.exact_u64]
    linarith
  · have sum := fp.monotone (show (lo.toNat : ℚ) + hi.toNat ≤ 2 * hi.toNat by linarith)
    rw [fp.exact_twice] at sum
    rw [← fp.exact_u64 hi]
    apply fp.monotone
    rw [fp.exact_u64]
    linarith

/-- What the mean takes for granted of the bucket of a value. -/
structure Bracketed (fp : LongDouble) (value : UInt64) : Prop where
  index : 0 ≤ indexFor value ∧ indexFor value < BUCKETS
  lower : bucketLowerValue (indexFor value) ≤ value
  upper : value < bucketUpperValue (indexFor value) ∨
    value.toNat = 2 ^ 64 - 1 ∧ value = bucketUpperValue (indexFor value)
  midpoint : (bucketLowerValue (indexFor value)).toNat ≤
      fp.midpoint (bucketLowerValue (indexFor value)) (bucketUpperValue (indexFor value)) ∧
    fp.midpoint (bucketLowerValue (indexFor value)) (bucketUpperValue (indexFor value)) ≤
      (bucketUpperValue (indexFor value)).toNat
  samples : ∀ sample : UInt64, indexFor sample = indexFor value →
    |fp.midpoint (bucketLowerValue (indexFor value)) (bucketUpperValue (indexFor value)) -
        sample.toNat| ≤
      (bucketUpperValue (indexFor value)).toNat - (bucketLowerValue (indexFor value)).toNat

theorem bracketed_of_inner (fp : LongDouble) {value : UInt64}
    (inner : indexFor value + 1 < BUCKETS) : Bracketed fp value := by
  have lower := bucketLower_le value
  have upper := lt_bucketUpper inner
  have between := midpoint_between fp (Nat.le_trans lower (Nat.le_of_lt upper))
  refine ⟨⟨indexFor_nonneg value, indexFor_lt value⟩, UInt64.le_iff_toNat_le.mpr lower,
    Or.inl (UInt64.lt_iff_toNat_lt.mpr upper), between, ?_⟩
  intro sample same
  have above : ((bucketLowerValue (indexFor value)).toNat : ℚ) ≤ sample.toNat :=
    Nat.cast_le.mpr (same ▸ bucketLower_le sample)
  have below : (sample.toNat : ℚ) ≤ (bucketUpperValue (indexFor value)).toNat :=
    Nat.cast_le.mpr (same ▸ Nat.le_of_lt (lt_bucketUpper (same ▸ inner)))
  obtain ⟨least, most⟩ := between
  rw [abs_le]
  constructor <;> linarith

/-- Exactly the values before the last bucket are bracketed. -/
theorem bracketed_iff (fp : LongDouble) (value : UInt64) :
    Bracketed fp value ↔ value.toNat < 2 ^ 63 + 15 * (2 ^ 59 - 1) := by
  rw [← lastBucket_iff]
  constructor
  · intro bracketed
    by_contra last
    have buckets : BUCKETS = 1024 := rfl
    have bound := bracketed.index.2
    have index : indexFor value = 1023 := by omega
    have large : 2 ^ 63 + 15 * (2 ^ 59 - 1) ≤ value.toNat :=
      Nat.le_of_not_lt (mt (lastBucket_iff value).mpr last)
    have upper := bucketUpperValue_last
    rcases bracketed.upper with below | ⟨_, equal⟩
    · rw [index, UInt64.lt_iff_toNat_lt, upper] at below
      omega
    · rw [index] at equal
      rw [equal, upper] at large
      omega
  · exact bracketed_of_inner fp

/-- Arithmetic that does not round. -/
def exactLongDouble : LongDouble where
  round := id
  monotone := monotone_id
  exact_u64 := fun _ => rfl
  exact_twice := fun _ => rfl

/-- The largest value is far above what is taken for the upper end of its bucket. -/
theorem largest_value_not_bracketed :
    indexFor 18446744073709551615 = 1023 ∧ bucketUpperValue 1023 < bucketLowerValue 1023 ∧
      ¬Bracketed exactLongDouble 18446744073709551615 := by
  refine ⟨by decide, by decide, fun bracketed => ?_⟩
  exact absurd bracketed.upper (by decide)

end BandleCxl.Guarantees
