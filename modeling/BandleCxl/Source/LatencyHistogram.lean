import Mathlib.Algebra.BigOperators.Fin
import BandleCxl.Source.Message

/-!
`LatencyHistogram` bucket layout and `Bandle::AtomicHistogram`
(`include/latency_histogram.h`, `histogram_index_for` and `AtomicHistogram::record`
in `src/bandle.cpp`). Samples are 64-bit values.
-/
namespace BandleCxl.Source

namespace LatencyHistogram
def SUB_BUCKETS : Nat := 16
def MAX_EXP : Nat := 63
def BUCKETS : Nat := (MAX_EXP + 1) * SUB_BUCKETS
end LatencyHistogram

open LatencyHistogram

/-- `63 - __builtin_clzll(value)` is the position of the leading one bit. -/
def histogramIndexFor (value : Nat) : Nat :=
  if value = 0 then 0
  else
    let exp := if value.log2 > MAX_EXP then MAX_EXP else value.log2
    let base := if exp = 0 then 1 else 1 <<< exp
    let next := if exp = MAX_EXP then 2 ^ 64 - 1 else base <<< 1
    let width := if next > base then (next - base) / SUB_BUCKETS else 1
    let width := if width = 0 then 1 else width
    let off := if value ≤ base then 0 else value - base
    let sub := off / width
    let sub := if sub ≥ SUB_BUCKETS then SUB_BUCKETS - 1 else sub
    exp * SUB_BUCKETS + sub

/-- Both parts of an index are clamped. -/
theorem clamped_lt (exp sub : Nat) :
    (if exp > MAX_EXP then MAX_EXP else exp) * SUB_BUCKETS +
      (if sub ≥ SUB_BUCKETS then SUB_BUCKETS - 1 else sub) < BUCKETS := by
  have exponent : (if exp > MAX_EXP then MAX_EXP else exp) ≤ MAX_EXP := by
    split <;> omega
  have clamp : (if sub ≥ SUB_BUCKETS then SUB_BUCKETS - 1 else sub) < SUB_BUCKETS := by
    have : SUB_BUCKETS = 16 := rfl
    split <;> omega
  refine Nat.lt_of_lt_of_le (Nat.add_lt_add_left clamp _) ?_
  rw [← Nat.succ_mul]
  exact Nat.mul_le_mul_right _ (Nat.succ_le_succ exponent)

theorem histogramIndexFor_lt (value : Nat) : histogramIndexFor value < BUCKETS := by
  unfold histogramIndexFor
  split
  · decide
  · exact clamped_lt _ _

structure AtomicHistogram where
  counts : Fin BUCKETS → Nat := fun _ => 0
  total : Nat := 0

namespace AtomicHistogram

def record (h : AtomicHistogram) (value : Nat) : AtomicHistogram where
  counts := Function.update h.counts ⟨histogramIndexFor value, histogramIndexFor_lt value⟩
    (h.counts ⟨histogramIndexFor value, histogramIndexFor_lt value⟩ + 1)
  total := h.total + 1

/-- The number of samples the buckets hold. -/
def samples (h : AtomicHistogram) : Nat := ∑ i, h.counts i

@[simp] theorem samples_default : ({} : AtomicHistogram).samples = 0 := by simp [samples]

@[simp] theorem record_total (h : AtomicHistogram) (value : Nat) :
    (h.record value).total = h.total + 1 := rfl

@[simp] theorem record_samples (h : AtomicHistogram) (value : Nat) :
    (h.record value).samples = h.samples + 1 := by
  simp only [samples, record]
  rw [Finset.sum_update_of_mem (Finset.mem_univ _), ← Finset.add_sum_erase _ _ (Finset.mem_univ
    (⟨histogramIndexFor value, histogramIndexFor_lt value⟩ : Fin BUCKETS)), Finset.sdiff_singleton_eq_erase]
  omega

end AtomicHistogram

end BandleCxl.Source
