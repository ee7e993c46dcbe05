import Mathlib.Algebra.BigOperators.Fin
import Mathlib.Data.List.Sort

/-!
Items that are counted by a monotone key. Scanning the keys in order until the counts
reach `k` finds the key of the `k`-th smallest item. The order of the items is any relation.
-/
namespace BandleCxl.Library

variable {α β : Type*} {r : α → α → Prop}

/-- In an ordered list the items of a downward closed set come first. -/
theorem lt_countP_iff {D : α → Prop} [DecidablePred D]
    (closed : ∀ a b, r a b → D b → D a) {items : List α} (ordered : items.Pairwise r)
    {k : Nat} (inside : k < items.length) : k < items.countP (D ·) ↔ D items[k] := by
  induction items generalizing k with
  | nil => exact absurd inside (Nat.not_lt_zero k)
  | cons a rest ih =>
    obtain ⟨least, tail⟩ := List.pairwise_cons.mp ordered
    by_cases first : D a
    · rw [List.countP_cons_of_pos (by simpa using first)]
      cases k with
      | zero => simp [first]
      | succ k =>
        rw [Nat.add_lt_add_iff_right]
        exact ih tail (Nat.lt_of_succ_lt_succ inside)
    · -- Nothing after the first item is in the set either.
      have none : (a :: rest).countP (D ·) = 0 := by
        apply List.countP_eq_zero.mpr
        intro b member
        rw [decide_eq_true_eq]
        rcases List.mem_cons.mp member with rfl | later
        · exact first
        · exact fun holds => first (closed a b (least b later) holds)
      rw [none]
      refine iff_of_false (Nat.not_lt_zero k) fun holds => first ?_
      rcases List.mem_cons.mp (List.getElem_mem inside) with same | later
      · rwa [same] at holds
      · exact closed _ _ (least _ later) holds

/-- The first key at which the accumulated weight reaches the target. -/
def scanTo (weight : β → Nat) (target : Nat) : List β → Nat → Option β
  | [], _ => none
  | b :: rest, cum =>
    if target ≤ cum + weight b then some b else scanTo weight target rest (cum + weight b)

/-- How many items have a certain key. -/
def keyCount [DecidableEq β] (key : α → β) (items : List α) (b : β) : Nat :=
  items.countP (key · = b)

theorem keyCount_perm [DecidableEq β] {key : α → β} {items items' : List α}
    (same : items.Perm items') : keyCount key items = keyCount key items' :=
  funext fun _ => same.countP_eq _

theorem sum_keyCount [Fintype β] [DecidableEq β] (key : α → β) (items : List α) :
    ∑ b, keyCount key items b = items.length := by
  induction items with
  | nil => simp [keyCount]
  | cons a rest ih =>
    have step : ∀ b, keyCount key (a :: rest) b = keyCount key rest b + if key a = b then 1 else 0 := by
      intro b
      simp [keyCount, List.countP_cons]
    simp only [step, Finset.sum_add_distrib, ih, Finset.sum_ite_eq, Finset.mem_univ, if_true,
      List.length_cons]

theorem countP_mem_concat [DecidableEq β] (key : α → β) (items : List α) {before : List β} {b : β}
    (fresh : b ∉ before) :
    items.countP (key · ∈ before ++ [b]) = items.countP (key · ∈ before) + keyCount key items b := by
  induction items with
  | nil => rfl
  | cons a rest ih =>
    simp only [keyCount, List.countP_cons, List.mem_append, List.mem_singleton] at ih ⊢
    by_cases here : key a = b
    · have out : key a ∉ before := here ▸ fresh
      simp only [here, or_true, decide_true, if_true] at ih ⊢
      rw [here] at out
      simp only [out, decide_false]
      rw [ih]
      simp only [Bool.false_eq_true, if_false]
      omega
    · simp only [here, or_false, decide_false, Bool.false_eq_true, if_false] at ih ⊢
      rw [ih]
      omega

variable [LinearOrder β] {key : α → β} {items : List α} {order : List β}

theorem mem_scanned {before rest : List β} (increasing : order.Pairwise (· < ·))
    (complete : ∀ b, b ∈ order) (split : order = before ++ rest) {b c : β} (le : b ≤ c)
    (member : c ∈ before) : b ∈ before := by
  subst split
  rcases List.mem_append.mp (complete b) with early | late
  · exact early
  · exact absurd ((List.pairwise_append.mp increasing).2.2 c member b late) (not_lt.mpr le)

/-- The scan from any key that is not past the wanted one. -/
theorem scanTo_suffix (monotone : ∀ a b, r a b → key a ≤ key b) (ordered : items.Pairwise r)
    {k : Nat} (inside : k < items.length) (increasing : order.Pairwise (· < ·)) (complete : ∀ b, b ∈ order)
    (before rest : List β) (split : order = before ++ rest) (ahead : key items[k] ∉ before) :
    scanTo (keyCount key items) (k + 1) rest (items.countP (key · ∈ before)) =
      some (key items[k]) := by
  induction rest generalizing before with
  | nil =>
    rw [List.append_nil] at split
    exact absurd (split ▸ complete _) ahead
  | cons b rest ih =>
    have split' : order = (before ++ [b]) ++ rest := by
      rw [split, List.append_assoc, List.singleton_append]
    have fresh : b ∉ before := fun member => lt_irrefl b
      ((List.pairwise_append.mp (split ▸ increasing)).2.2 b member b List.mem_cons_self)
    have reached : k + 1 ≤ items.countP (key · ∈ before ++ [b]) ↔ key items[k] ∈ before ++ [b] := by
      refine lt_countP_iff (D := (key · ∈ before ++ [b])) ?_ ordered inside
      intro a c le member
      exact mem_scanned increasing complete split' (monotone a c le) member
    rw [scanTo, ← countP_mem_concat key items fresh]
    by_cases here : key items[k] ∈ before ++ [b]
    · rw [if_pos (reached.mpr here)]
      rcases List.mem_append.mp here with early | now
      · exact absurd early ahead
      · rw [List.mem_singleton.mp now]
    · rw [if_neg (mt reached.mp here)]
      exact ih (before ++ [b]) split' here

theorem scanTo_eq (monotone : ∀ a b, r a b → key a ≤ key b) (ordered : items.Pairwise r)
    {k : Nat} (inside : k < items.length) (increasing : order.Pairwise (· < ·)) (complete : ∀ b, b ∈ order) :
    scanTo (keyCount key items) (k + 1) order 0 = some (key items[k]) := by
  have start := scanTo_suffix monotone ordered inside increasing complete [] order rfl List.not_mem_nil
  simpa using start

end BandleCxl.Library
