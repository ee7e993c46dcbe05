import BandleCxl.Invariant.Buckets
import BandleCxl.Library.Ranks

/-!
What `quantile_value` returns for a rank. As long as 64 bits count the samples, the scan
stops at the bucket of the sample of that rank.
-/
namespace BandleCxl.Guarantees
open Library Source Invariant LatencyHistogram

/-- A histogram filled by recording samples and merging histograms. -/
inductive Collection where
  | empty
  | record (c : Collection) (value : UInt64)
  | merge (c other : Collection)

namespace Collection

def histogram : Collection → LatencyHistogram
  | empty => {}
  | record c value => c.histogram.record value
  | merge c other => c.histogram.merge other.histogram

def samples : Collection → List UInt64
  | empty => []
  | record c value => c.samples ++ [value]
  | merge c other => c.samples ++ other.samples

/-- The recorded samples from the smallest to the largest. -/
def sorted (c : Collection) : List UInt64 := c.samples.mergeSort (· ≤ ·)

theorem sorted_perm (c : Collection) : c.sorted.Perm c.samples := List.mergeSort_perm _ _

theorem sorted_ordered (c : Collection) : c.sorted.Pairwise (· ≤ ·) := by
  have ordered : c.sorted.Pairwise fun a b => decide (a ≤ b) = true := by
    apply List.pairwise_mergeSort
    · intro a b c le le'
      exact decide_eq_true (UInt64.le_trans (of_decide_eq_true le) (of_decide_eq_true le'))
    · intro a b
      simpa using UInt64.le_total a b
  exact ordered.imp of_decide_eq_true

theorem weights_histogram (c : Collection) :
    weights c.histogram = (c.samples.map sampleUnit).sum := by
  induction c with
  | empty => rfl
  | record c value ih => simp [histogram, samples, weights_record, ih]
  | merge c other ih ih' => simp [histogram, samples, weights_merge, ih, ih']

end Collection

/-- The sum of the units counts the samples of every bucket, modulo `2 ^ 64`. -/
theorem sum_sampleUnit (samples : List UInt64) :
    (samples.map sampleUnit).sum =
      (fun i => UInt64.ofNat (keyCount bucketOf samples i), UInt64.ofNat samples.length) := by
  induction samples with
  | nil => rfl
  | cons value rest ih =>
    rw [List.map_cons, List.sum_cons, ih]
    refine Prod.ext (funext fun i => ?_) ?_
    · by_cases here : bucketOf value = i
      · simp [sampleUnit, Weights.unit, keyCount, here, UInt64.ofNat_add, add_comm]
      · simp [sampleUnit, Weights.unit, keyCount, here, Ne.symm here]
    · simp [sampleUnit, Weights.unit, UInt64.ofNat_add, add_comm]

/-- Without a wrap the loop is a scan over counts. -/
theorem quantileScan_eq (h : LatencyHistogram) (target : UInt64) (rest : List (Fin BUCKETS))
    (cum : UInt64) (fits : cum.toNat + (rest.map fun i => (h.counts i).toNat).sum < 2 ^ 64)
    {i : Fin BUCKETS}
    (found : scanTo (fun i => (h.counts i).toNat) target.toNat rest cum.toNat = some i) :
    h.quantileScan target rest cum = bucketLowerValue (i : Nat) := by
  induction rest generalizing cum with
  | nil => simp [scanTo] at found
  | cons j rest ih =>
    rw [List.map_cons, List.sum_cons] at fits
    have sum : (cum + h.counts j).toNat = cum.toNat + (h.counts j).toNat := by
      rw [UInt64.toNat_add, Nat.mod_eq_of_lt (by omega)]
    rw [scanTo] at found
    rw [quantileScan]
    by_cases reached : target.toNat ≤ cum.toNat + (h.counts j).toNat
    · rw [if_pos reached, Option.some_inj] at found
      rw [if_pos (UInt64.le_iff_toNat_le.mpr (sum ▸ reached)), found]
    · rw [if_neg reached] at found
      rw [if_neg (fun le => reached (sum ▸ UInt64.le_iff_toNat_le.mp le))]
      exact ih (cum + h.counts j) (by omega) (sum ▸ found)

theorem counts_toNat (c : Collection) (counted : c.samples.length < 2 ^ 64) (i : Fin BUCKETS) :
    (c.histogram.counts i).toNat = keyCount bucketOf c.sorted i := by
  have counts := congrFun (congrArg Prod.fst (c.weights_histogram.trans (sum_sampleUnit _))) i
  have bound : keyCount bucketOf c.samples i < 2 ^ 64 :=
    Nat.lt_of_le_of_lt List.countP_le_length counted
  rw [keyCount_perm c.sorted_perm]
  exact (congrArg UInt64.toNat counts).trans (UInt64.toNat_ofNat_of_lt' bound)

theorem total_eq (c : Collection) : c.histogram.total = UInt64.ofNat c.samples.length :=
  congrArg Prod.snd (c.weights_histogram.trans (sum_sampleUnit _))

/-- The value of a rank is the lower end of the bucket of the sample of that rank. -/
theorem quantileValue_eq (c : Collection) (counted : c.samples.length < 2 ^ 64) {k : UInt64}
    (positive : 1 ≤ k) (inside : k.toNat - 1 < c.sorted.length) :
    c.histogram.quantileValue k = bucketLowerValue (indexFor c.sorted[k.toNat - 1]) := by
  have first : 1 ≤ k.toNat := UInt64.le_iff_toNat_le.mp positive
  have length := c.sorted_perm.length_eq
  have total : c.histogram.total ≠ 0 := by
    intro zero
    have none := (congrArg UInt64.toNat ((total_eq c).symm.trans zero)).symm
    rw [UInt64.toNat_ofNat_of_lt' counted, UInt64.toNat_zero] at none
    omega
  have nonzero : k ≠ 0 := by
    rintro rfl
    exact absurd first (by decide)
  have counts := counts_toNat c counted
  rw [quantileValue, if_neg total, if_neg nonzero, ← bucketOf_val]
  apply quantileScan_eq
  · simp only [counts, UInt64.toNat_zero, zero_add]
    rw [← Fin.sum_univ_def, sum_keyCount, length]
    exact counted
  · have scan := scanTo_eq bucketOf_mono c.sorted_ordered inside
      (List.pairwise_lt_finRange BUCKETS) List.mem_finRange
    rw [Nat.sub_add_cancel first] at scan
    simp only [counts]
    exact scan

/-- Quantiles are exact up to a sixteenth while the total counts the samples. -/
theorem quantile_within_sixteenth (c : Collection) (counted : c.samples.length < 2 ^ 64)
    (k : UInt64) (positive : 1 ≤ k) (rank : k ≤ c.histogram.total) :
    ∃ x, c.sorted[k.toNat - 1]? = some x ∧
      let r := c.histogram.quantileValue k
      r = bucketLowerValue (indexFor x) ∧ r ≤ x ∧
        x.toNat ≤ r.toNat + max 1 (r.toNat / 16) := by
  have first : 1 ≤ k.toNat := UInt64.le_iff_toNat_le.mp positive
  have bound : k.toNat ≤ c.samples.length := by
    rw [total_eq, UInt64.le_iff_toNat_le, UInt64.toNat_ofNat_of_lt' counted] at rank
    exact rank
  have inside : k.toNat - 1 < c.sorted.length := by
    rw [c.sorted_perm.length_eq]
    omega
  refine ⟨c.sorted[k.toNat - 1], List.getElem?_eq_getElem inside, ?_⟩
  rw [quantileValue_eq c counted positive inside]
  exact ⟨rfl, UInt64.le_iff_toNat_le.mpr (bucketLower_le _), le_bucketLower_add _⟩

theorem quantile_of_merged :
    let c : Collection := .merge (.record .empty 100) (.record .empty 7)
    c.samples.length < 2 ^ 64 ∧ 2 ≤ c.histogram.total ∧
      ∃ x, c.sorted[1]? = some x ∧
        let r := c.histogram.quantileValue 2
        r = bucketLowerValue (indexFor x) ∧ r ≤ x ∧
          x.toNat ≤ r.toNat + max 1 (r.toNat / 16) :=
  ⟨by decide, by decide, quantile_within_sixteenth _ (by decide) 2 (by decide) (by decide)⟩

/-! ### A total that wraps -/

namespace Collection

/-- The histogram merged with a copy of itself, over and over. -/
def doubled (c : Collection) : Nat → Collection
  | 0 => c
  | n + 1 => merge (c.doubled n) (c.doubled n)

theorem countP_doubled (c : Collection) (p : UInt64 → Bool) (n : Nat) :
    (c.doubled n).samples.countP p = 2 ^ n * c.samples.countP p := by
  induction n with
  | zero => rw [pow_zero, one_mul, doubled]
  | succ n ih => rw [doubled, samples, List.countP_append, ih, ← add_mul, pow_succ, mul_two]

theorem mem_doubled {c : Collection} {n : Nat} {value : UInt64} :
    value ∈ (c.doubled n).samples ↔ value ∈ c.samples := by
  induction n with
  | zero => rfl
  | succ n ih => rw [doubled, samples, List.mem_append, or_self, ih]

/-- Nothing is left of what was recorded `2 ^ 64` times. -/
theorem histogram_doubled (c : Collection) : (c.doubled 64).histogram = {} := by
  have vanish : ∀ m, UInt64.ofNat (2 ^ 64 * m) = 0 := by
    intro m
    apply UInt64.toNat_inj.mp
    rw [UInt64.toNat_ofNat', Nat.mul_mod_right, UInt64.toNat_zero]
  apply weights_injective
  rw [weights_histogram, sum_sampleUnit, weights_empty, ← List.countP_true, countP_doubled, vanish]
  refine Prod.ext (funext fun i => ?_) rfl
  exact (congrArg UInt64.ofNat (countP_doubled c _ 64)).trans (vanish _)

end Collection

/-- One sample recorded, 64 mergers of equal histograms, and one more sample. -/
def overfull : Collection := .record ((Collection.record .empty 1).doubled 64) 100

theorem overfull_histogram : overfull.histogram = (Collection.record .empty 100).histogram := by
  rw [overfull, Collection.histogram, Collection.histogram_doubled]
  rfl

theorem overfull_smallest {x : UInt64} (smallest : overfull.sorted[0]? = some x) : x = 1 := by
  have member : ∀ value, value ∈ overfull.sorted ↔ value = 1 ∨ value = 100 := by
    intro value
    rw [overfull.sorted_perm.mem_iff, overfull, Collection.samples, List.mem_append,
      Collection.mem_doubled]
    simp [Collection.samples]
  have inside := List.mem_of_getElem? smallest
  rcases (member x).mp inside with one | hundred
  · exact one
  · -- Then 1 comes later in the sorted list, and is not smaller.
    obtain ⟨rest, split⟩ : ∃ rest, overfull.sorted = x :: rest := by
      cases shape : overfull.sorted with
      | nil => rw [shape] at smallest; cases smallest
      | cons first rest =>
        rw [shape, List.getElem?_cons_zero, Option.some_inj] at smallest
        exact ⟨rest, by rw [smallest]⟩
    have later := (member 1).mpr (Or.inl rfl)
    have ordered := overfull.sorted_ordered
    rw [split] at later ordered
    rcases List.mem_cons.mp later with same | later
    · exact same.symm
    · have bound := (List.pairwise_cons.mp ordered).1 1 later
      rw [hundred] at bound
      exact absurd bound (by decide)

/-- With `2 ^ 64` samples too many the first rank is taken from the last sample alone. -/
theorem overfull_first_rank : ¬∀ (c : Collection) (k : UInt64), c.samples ≠ [] → 1 ≤ k →
    k ≤ c.histogram.total → ∃ x, c.sorted[k.toNat - 1]? = some x ∧
      let r := c.histogram.quantileValue k
      r = bucketLowerValue (indexFor x) ∧ r ≤ x ∧
        x.toNat ≤ r.toNat + max 1 (r.toNat / 16) := by
  intro claim
  have total : 1 ≤ overfull.histogram.total := by
    rw [overfull_histogram]
    decide
  have nonempty : overfull.samples ≠ [] := by simp [overfull, Collection.samples]
  have inside : (1 : UInt64).toNat - 1 < (Collection.record .empty 100).sorted.length := by
    rw [(Collection.sorted_perm _).length_eq]
    decide
  obtain ⟨x, smallest, value, _⟩ := claim overfull 1 nonempty (by decide) total
  rw [overfull_smallest smallest, overfull_histogram,
    quantileValue_eq (.record .empty 100) (by decide) (by decide) inside] at value
  have only : (Collection.record .empty 100).sorted = [100] := List.mergeSort_singleton 100
  simp only [only, UInt64.toNat_one, Nat.sub_self, List.getElem_cons_zero] at value
  exact absurd value (by decide)

end BandleCxl.Guarantees
