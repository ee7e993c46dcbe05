import Mathlib.Data.List.Basic
import Mathlib.Logic.Function.Basic

/-!
Items dealt out one by one. A log of items with their owners is an order-preserving
partition; giving each item to an owner who has the fewest keeps the shares balanced.
-/
namespace BandleCxl.Library

variable {α ι : Type*}

/-- No two counts differ by more than one. -/
def Balanced (count : ι → Nat) : Prop := ∀ i j, count i ≤ count j + 1

theorem balanced_zero : Balanced fun _ : ι => 0 := fun _ _ => Nat.zero_le _

/-- One more for an owner who has the fewest. -/
theorem Balanced.add_least [DecidableEq ι] {count count' : ι → Nat} {i : ι}
    (balanced : Balanced count) (least : ∀ j, count i ≤ count j)
    (same : ∀ j, count' j = count j + if i = j then 1 else 0) : Balanced count' := by
  intro j k
  have near := balanced j k
  have few := least k
  rw [same, same]
  by_cases first : i = j
  · subst first
    split <;> split <;> omega
  · rw [if_neg first]
    omega

variable [DecidableEq ι]

/-- The items of one owner, in order. -/
def share (log : List (α × ι)) (i : ι) : List α := (log.filter fun e => e.2 = i).map Prod.fst

theorem share_concat (log : List (α × ι)) (a : α) (i j : ι) :
    share (log ++ [(a, i)]) j = share log j ++ if i = j then [a] else [] := by
  rw [share, List.filter_append, List.map_append, share]
  by_cases here : i = j <;> simp [here]

theorem countP_share_concat (p : α → Bool) (log : List (α × ι)) (a : α) (i j : ι) :
    (share (log ++ [(a, i)]) j).countP p =
      (share log j).countP p + if p a = true ∧ i = j then 1 else 0 := by
  rw [share_concat, List.countP_append]
  by_cases here : i = j <;> by_cases counted : p a = true <;> simp [here, counted]

/-- A share is part of all the items, in their order. -/
theorem share_sublist (log : List (α × ι)) (i : ι) : (share log i).Sublist (log.map Prod.fst) :=
  List.filter_sublist.map Prod.fst

/-- What holds of a log before its last entry and after it holds of all its prefixes. -/
theorem forall_prefix_concat {P : List α → Prop} {log : List α} {e : α}
    (before : ∀ p, p <+: log → P p) (whole : P (log ++ [e])) : ∀ p, p <+: log ++ [e] → P p := by
  intro p start
  rcases List.prefix_concat_iff.mp start with all | early
  · rw [all]
    exact whole
  · exact before p early

end BandleCxl.Library
