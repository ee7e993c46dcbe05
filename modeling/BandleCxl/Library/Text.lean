import Mathlib.Tactic

/-!
Splitting a list at the first occurrence of an element, and dropping a class of
elements off its end.
-/
namespace BandleCxl.Library

variable {α : Type*} [DecidableEq α]

theorem idxOf?_append_cons {first rest : List α} {a : α} (absent : a ∉ first) :
    (first ++ a :: rest).idxOf? a = some first.length := by
  induction first with
  | nil => simp [List.idxOf?_cons]
  | cons b first ih =>
    obtain ⟨other, later⟩ := not_or.mp (List.mem_cons.not.mp absent)
    have different : (b == a) = false := by simpa using Ne.symm other
    rw [List.cons_append, List.idxOf?_cons, different, ih later]
    rfl

/-- The text before and after the first occurrence. -/
theorem exists_split_of_idxOf? {l : List α} {a : α} {i : Nat} (found : l.idxOf? a = some i) :
    ∃ first rest, l = first ++ a :: rest ∧ a ∉ first ∧ first.length = i := by
  obtain ⟨within, here, before⟩ := List.idxOf?_eq_some_iff.mp found
  refine ⟨l.take i, l.drop (i + 1), ?_, ?_, ?_⟩
  · rw [← here, List.cons_getElem_drop_succ, List.take_append_drop]
  · intro member
    obtain ⟨j, inside, at_⟩ := List.mem_iff_getElem.mp member
    rw [List.length_take] at inside
    rw [List.getElem_take] at at_
    exact before j (by omega) at_
  · rw [List.length_take]
    omega

omit [DecidableEq α] in
/-- Dropping off the end stops at an element that is kept. -/
theorem reverse_dropWhile_append_cons {p : α → Bool} (first rest : List α) {a : α}
    (kept : p a = false) :
    ((first ++ a :: rest).reverse.dropWhile p).reverse =
      first ++ a :: (rest.reverse.dropWhile p).reverse := by
  rw [List.reverse_append, List.reverse_cons, List.append_assoc, List.dropWhile_append]
  split
  · next empty =>
    have none := List.isEmpty_iff.mp empty
    rw [none]
    simp [kept]
  · simp

end BandleCxl.Library
