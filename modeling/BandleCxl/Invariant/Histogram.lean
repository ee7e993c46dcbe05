import Mathlib.Data.UInt
import BandleCxl.Library.Weights
import BandleCxl.Source.Statistics

/-!
Both histograms as weights of 64-bit counts. Recording a sample, filling a bucket and
merging add to the weights, and the two bucket functions agree on every sample.
-/
namespace BandleCxl.Invariant
open Library Source LatencyHistogram

/-! ### Bucket index -/

theorem if_toNat {p q : Prop} [Decidable p] [Decidable q] (same : p ↔ q) {a b : UInt64}
    {m n : Nat} (yes : p → a.toNat = m) (no : ¬p → b.toNat = n) :
    (if p then a else b).toNat = if q then m else n := by
  by_cases holds : p
  · rw [if_pos holds, if_pos (same.mp holds), yes holds]
  · rw [if_neg holds, if_neg (mt same.mpr holds), no holds]

theorem shiftLeft_toNat {a : UInt64} {k : Nat} (small : k < 64) (fits : a.toNat <<< k < 2 ^ 64) :
    (a <<< UInt64.ofNat k).toNat = a.toNat <<< k := by
  have shift : (UInt64.ofNat k).toNat = k :=
    UInt64.toNat_ofNat_of_lt' (Nat.lt_of_lt_of_le small (by decide))
  rw [UInt64.toNat_shiftLeft, shift, Nat.mod_eq_of_lt small, Nat.mod_eq_of_lt fits]

/-- The width of a bucket, in 64-bit arithmetic and without. -/
theorem width_toNat (base next : UInt64) :
    let width : UInt64 := if next > base then (next - base) / UInt64.ofNat SUB_BUCKETS else 1
    let width' :=
      if next.toNat > base.toNat then (next.toNat - base.toNat) / SUB_BUCKETS else 1
    (if width = 0 then 1 else width).toNat = if width' = 0 then 1 else width' := by
  intro width width'
  have widths : width.toNat = width' := by
    refine if_toNat UInt64.lt_iff_toNat_lt (fun wide => ?_) fun _ => rfl
    rw [UInt64.toNat_div, UInt64.toNat_sub_of_le _ _ (UInt64.le_of_lt wide)]
    rfl
  have zero : width = 0 ↔ width' = 0 := by
    rw [← widths]
    exact UInt64.toNat_inj.symm
  exact if_toNat zero (fun _ => rfl) fun _ => widths

/-- The position in the bucket's range, in 64-bit arithmetic and without. -/
theorem quotient_toNat (value base next : UInt64) :
    let width : UInt64 := if next > base then (next - base) / UInt64.ofNat SUB_BUCKETS else 1
    let width' :=
      if next.toNat > base.toNat then (next.toNat - base.toNat) / SUB_BUCKETS else 1
    ((if value ≤ base then 0 else value - base) / (if width = 0 then 1 else width)).toNat =
      (if value.toNat ≤ base.toNat then 0 else value.toNat - base.toNat) /
        (if width' = 0 then 1 else width') := by
  intro width width'
  rw [UInt64.toNat_div]
  congr 1
  · refine if_toNat UInt64.le_iff_toNat_le (fun _ => rfl) fun above => ?_
    exact UInt64.toNat_sub_of_le _ _ (UInt64.le_of_lt (UInt64.not_le.mp above))
  · exact width_toNat base next

/-- A value below twice the base is at most 32 widths above it. -/
theorem quotient_lt {value base next : Nat} (below : value < 2 * base)
    (wide : 2 * base ≤ next + 1) :
    let width := if next > base then (next - base) / SUB_BUCKETS else 1
    (if value ≤ base then 0 else value - base) / (if width = 0 then 1 else width) < 32 := by
  intro width
  have parts : SUB_BUCKETS = 16 := rfl
  have covers : next - base ≤ 16 * width + 15 := by
    simp only [width, parts]
    split <;> omega
  have covers : base ≤ 32 * (if width = 0 then 1 else width) := by
    generalize width = w at covers ⊢
    split <;> omega
  refine Nat.div_lt_of_lt_mul (Nat.lt_of_lt_of_le ?_ (Nat.mul_comm _ _ ▸ covers))
  split <;> omega

theorem int32_small {n : Nat} (small : n < 32) : int32 n = n :=
  Int.bmod_eq_of_le_mul_two (by omega) (by omega)

theorem base_eq_pow (exp : Nat) : (if exp = 0 then 1 else 1 <<< exp) = 2 ^ exp := by
  split
  · next is => rw [is, Nat.pow_zero]
  · rw [Nat.shiftLeft_eq, Nat.one_mul]

theorem base_toNat {exp : Nat} (small : exp ≤ 63) :
    (if exp = 0 then (1 : UInt64) else 1 <<< UInt64.ofNat exp).toNat =
      if exp = 0 then 1 else 1 <<< exp := by
  refine if_toNat Iff.rfl (fun _ => rfl) fun _ => shiftLeft_toNat (by omega) ?_
  rw [Nat.shiftLeft_eq, UInt64.toNat_one, Nat.one_mul]
  exact Nat.pow_lt_pow_right (by decide) (by omega)

theorem next_toNat {exp : Nat} {base : UInt64} (small : exp ≤ 63) (power : base.toNat = 2 ^ exp) :
    (if exp = MAX_EXP then (18446744073709551615 : UInt64) else base <<< 1).toNat =
      if exp = MAX_EXP then 2 ^ 64 - 1 else base.toNat <<< 1 := by
  have limit : MAX_EXP = 63 := rfl
  refine if_toNat Iff.rfl (fun _ => rfl) fun below => shiftLeft_toNat (k := 1) (by decide) ?_
  rw [power, Nat.shiftLeft_eq, ← Nat.pow_add]
  exact Nat.pow_lt_pow_right (by decide) (by omega)

theorem next_wide (exp : Nat) :
    2 * 2 ^ exp ≤ (if exp = MAX_EXP then 2 ^ 64 - 1 else 2 ^ exp <<< 1) + 1 := by
  split
  · next is =>
    rw [is]
    decide
  · rw [Nat.shiftLeft_eq]
    omega

theorem clamp_cast (exp sub : Nat) :
    ((exp : Int) * SUB_BUCKETS + if (sub : Int) ≥ SUB_BUCKETS then (SUB_BUCKETS : Int) - 1 else sub) =
      ((exp * SUB_BUCKETS + if sub ≥ SUB_BUCKETS then SUB_BUCKETS - 1 else sub : Nat) : Int) := by
  have parts : SUB_BUCKETS = 16 := rfl
  rw [parts]
  split <;> split <;> omega

/-- The two bucket functions agree: nothing wraps and the cast keeps the quotient. -/
theorem indexFor_eq (value : UInt64) : indexFor value = histogramIndexFor value.toNat := by
  unfold indexFor histogramIndexFor
  by_cases zero : value = 0
  · subst zero
    rfl
  · have nonzero : value.toNat ≠ 0 := fun eq => zero (UInt64.toNat_inj.mp eq)
    have limit : MAX_EXP = 63 := rfl
    have small : value.toNat.log2 ≤ 63 :=
      Nat.le_of_lt_succ ((Nat.log2_lt nonzero).mpr value.toNat_lt)
    have below : value.toNat < 2 * 2 ^ value.toNat.log2 := by
      rw [← Nat.pow_succ']
      exact Nat.lt_log2_self
    rw [if_neg zero, if_neg nonzero, if_neg (show ¬value.toNat.log2 > MAX_EXP by omega)]
    dsimp only
    generalize value.toNat.log2 = exp at small below ⊢
    have base := base_toNat small
    have power := base_eq_pow exp
    generalize (if exp = 0 then (1 : UInt64) else 1 <<< UInt64.ofNat exp) = b at base ⊢
    rw [← base] at power ⊢
    have next := next_toNat small power
    generalize (if exp = MAX_EXP then (18446744073709551615 : UInt64) else b <<< 1) = n at next ⊢
    have wide := next_wide exp
    rw [← next]
    rw [← power] at wide below
    rw [← next] at wide
    rw [quotient_toNat value b n, int32_small (quotient_lt below wide)]
    exact clamp_cast exp _

/-! ### Weights -/

/-- The counts and the total. -/
def weights (h : LatencyHistogram) : Weights (Fin BUCKETS) UInt64 := (h.counts, h.total)

theorem weights_injective : Function.Injective weights := by
  rintro ⟨counts, total⟩ ⟨counts', total'⟩ same
  obtain ⟨rfl, rfl⟩ := Prod.mk.inj same
  rfl

theorem weights_empty : weights {} = 0 := rfl

/-- What one sample adds. -/
def sampleUnit (value : UInt64) : Weights (Fin BUCKETS) UInt64 :=
  Weights.unit (bucketOf value) 1

theorem weights_record (h : LatencyHistogram) (value : UInt64) :
    weights (h.record value) = weights h + sampleUnit value :=
  Weights.update_eq_add_unit h.counts h.total _ 1

theorem weights_merge (h other : LatencyHistogram) :
    weights (h.merge other) = weights h + weights other := rfl

theorem weights_addBucket (h : LatencyHistogram) (i : Fin BUCKETS) (cnt : UInt64) :
    weights (h.addBucket (i : Nat) cnt) = weights h + Weights.unit i cnt := by
  have inside : (i : Nat) < BUCKETS := i.isLt
  unfold addBucket
  by_cases zero : cnt = 0
  · rw [dif_pos (Or.inl zero), zero, Weights.unit_zero, add_zero]
  · have accepted : ¬(cnt = 0 ∨ ((i : Nat) : Int) < 0 ∨ ((i : Nat) : Int) ≥ BUCKETS) := by
      rintro (none | range)
      · exact zero none
      · omega
    rw [dif_neg accepted]
    exact Weights.update_eq_add_unit h.counts h.total i cnt

/-- The loop over all buckets that skips the empty ones. -/
def fillBuckets (counts : Fin BUCKETS → UInt64) (indices : List (Fin BUCKETS))
    (h : LatencyHistogram) : LatencyHistogram :=
  indices.foldl (fun s i => if counts i ≠ 0 then s.addBucket (i : Nat) (counts i) else s) h

theorem weights_fillBuckets (counts : Fin BUCKETS → UInt64) :
    weights (fillBuckets counts (List.finRange BUCKETS) {}) = (counts, ∑ i, counts i) := by
  have adds : ∀ (s : LatencyHistogram) (i : Fin BUCKETS),
      weights (if counts i ≠ 0 then s.addBucket (i : Nat) (counts i) else s) =
        weights s + Weights.unit i (counts i) := by
    intro s i
    split
    · exact weights_addBucket s i (counts i)
    · next zero => rw [not_not.mp zero, Weights.unit_zero, add_zero]
  rw [fillBuckets, view_foldl weights adds, weights_empty, zero_add, ← Fin.sum_univ_def,
    Weights.sum_unit]

/-- One histogram that recorded all samples. -/
def recorded (samples : List UInt64) : LatencyHistogram := samples.foldl LatencyHistogram.record {}

theorem weights_recorded (samples : List UInt64) :
    weights (recorded samples) = (samples.map sampleUnit).sum := by
  rw [recorded, view_foldl weights weights_record, weights_empty, zero_add]

/-- The atomics after the samples. -/
def recordedAtomic (samples : List UInt64) : AtomicHistogram :=
  samples.foldl (fun h value => h.record value.toNat) {}

/-- The weights that a snapshot has. -/
def atomicWeights (h : AtomicHistogram) : Weights (Fin BUCKETS) UInt64 :=
  (fun i => UInt64.ofNat (h.counts i), ∑ i, UInt64.ofNat (h.counts i))

theorem weights_snapshot (h : AtomicHistogram) : weights h.snapshot = atomicWeights h :=
  weights_fillBuckets fun i => UInt64.ofNat (h.counts i)

/-- Filling with the counts of a snapshot gives the snapshot, its total included. -/
theorem fillBuckets_snapshot (h : AtomicHistogram) :
    fillBuckets h.snapshot.counts (List.finRange BUCKETS) {} = h.snapshot := by
  apply weights_injective
  obtain ⟨counts, total⟩ := Prod.mk.inj (weights_snapshot h)
  rw [weights_fillBuckets, weights, total, counts]

theorem atomicWeights_record (h : AtomicHistogram) (value : UInt64) :
    atomicWeights (h.record value.toNat) = atomicWeights h + sampleUnit value := by
  have index : (⟨histogramIndexFor value.toNat, histogramIndexFor_lt value.toNat⟩ : Fin BUCKETS) =
      bucketOf value := by
    apply Fin.ext
    have same := congrArg Int.toNat (indexFor_eq value)
    rw [Int.toNat_natCast] at same
    exact same.symm
  have counts : (fun i => UInt64.ofNat ((h.record value.toNat).counts i)) =
      Function.update (fun i => UInt64.ofNat (h.counts i)) (bucketOf value)
        (UInt64.ofNat (h.counts (bucketOf value)) + 1) := by
    rw [AtomicHistogram.record, index]
    dsimp only
    rw [← Function.comp_def, Function.comp_update, UInt64.ofNat_add]
    rfl
  rw [atomicWeights, counts]
  exact Weights.sum_update (fun i => UInt64.ofNat (h.counts i)) _ 1

/-- A snapshot holds what a plain histogram of the same samples holds. -/
theorem snapshot_recordedAtomic (samples : List UInt64) :
    (recordedAtomic samples).snapshot = recorded samples := by
  apply weights_injective
  have start : atomicWeights {} = 0 := by
    refine Prod.ext rfl ?_
    simp [atomicWeights]
  rw [weights_snapshot, recordedAtomic, view_foldl atomicWeights atomicWeights_record, start,
    zero_add, weights_recorded]

end BandleCxl.Invariant
