import Mathlib.Algebra.BigOperators.Fin
import Mathlib.Algebra.BigOperators.Pi

/-!
Weights of buckets together with the weight of all of them. Adding to a bucket is
adding a unit, so a loop that fills buckets computes a sum, and its order is irrelevant.
-/
namespace BandleCxl.Library

abbrev Weights (ι M : Type*) := (ι → M) × M

namespace Weights

variable {ι M : Type*} [DecidableEq ι] [AddCommMonoid M]

/-- The weight `w` in bucket `i`. -/
def unit (i : ι) (w : M) : Weights ι M := (Pi.single i w, w)

@[simp] theorem unit_zero (i : ι) : unit i (0 : M) = 0 := by
  simp [unit]

theorem update_eq_add_single (counts : ι → M) (i : ι) (w : M) :
    Function.update counts i (counts i + w) = counts + Pi.single i w := by
  funext j
  by_cases here : j = i
  · subst here
    simp
  · simp [here]

theorem update_eq_add_unit (counts : ι → M) (total : M) (i : ι) (w : M) :
    (Function.update counts i (counts i + w), total + w) = (counts, total) + unit i w :=
  Prod.ext (update_eq_add_single counts i w) rfl

theorem sum_unit [Fintype ι] (f : ι → M) : ∑ i, unit i (f i) = (f, ∑ i, f i) := by
  refine Prod.ext ?_ ?_
  · rw [Prod.fst_sum]
    exact Finset.univ_sum_single f
  · rw [Prod.snd_sum]
    rfl

/-- Adding to a bucket keeps the total the sum of the buckets. -/
theorem sum_update [Fintype ι] (counts : ι → M) (i : ι) (w : M) :
    (Function.update counts i (counts i + w), ∑ j, Function.update counts i (counts i + w) j) =
      (counts, ∑ j, counts j) + unit i w := by
  refine Prod.ext (update_eq_add_single counts i w) ?_
  rw [update_eq_add_single]
  simp [unit, Finset.sum_add_distrib]

end Weights

/-- A loop each of whose rounds adds something computes a sum. -/
theorem view_foldl {α β M : Type*} [AddMonoid M] (view : β → M) {step : β → α → β} {g : α → M}
    (adds : ∀ b a, view (step b a) = view b + g a) (l : List α) (b : β) :
    view (l.foldl step b) = view b + (l.map g).sum := by
  induction l generalizing b with
  | nil => simp
  | cons a rest ih => rw [List.foldl_cons, ih, adds, List.map_cons, List.sum_cons, add_assoc]

end BandleCxl.Library
