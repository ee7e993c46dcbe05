import Mathlib.Tactic

/-!
A coherent shared location with possibly stale loads. The location keeps its
modification order; a load may return any value in it that is not older than what
the same reader returned before. A reader is the position it has seen.
-/
namespace BandleCxl.Library

structure SharedLocation (α : Type*) where
  order : Nat → α
  latest : Nat

namespace SharedLocation

variable {α : Type*}

def init (v : α) : SharedLocation α := ⟨fun _ => v, 0⟩

/-- The newest value, which the only writer always sees. -/
def value (l : SharedLocation α) : α := l.order l.latest

def store (l : SharedLocation α) (v : α) : SharedLocation α where
  order := Function.update l.order (l.latest + 1) v
  latest := l.latest + 1

/-- A load at position `v` by a reader that has seen position `seen`. -/
def MayLoad (l : SharedLocation α) (seen v : Nat) : Prop := seen ≤ v ∧ v ≤ l.latest

instance (l : SharedLocation α) (seen v : Nat) : Decidable (l.MayLoad seen v) :=
  inferInstanceAs (Decidable (_ ∧ _))

@[simp] theorem store_latest (l : SharedLocation α) (v : α) :
    (l.store v).latest = l.latest + 1 := rfl

/-- The location holds, at each position of its order, the image of a count that
never decreases and has now reached `now`. -/
structure Counts (l : SharedLocation α) (encode : Nat → α) (count : Nat → Nat) (now : Nat) :
    Prop where
  value : ∀ v ≤ l.latest, l.order v = encode (count v)
  monotone : ∀ v w, v ≤ w → w ≤ l.latest → count v ≤ count w
  newest : count l.latest = now

variable {l : SharedLocation α} {encode : Nat → α} {count : Nat → Nat} {now : Nat}

theorem Counts.init (v : α) (starts : v = encode 0) :
    (SharedLocation.init v).Counts encode (fun _ => 0) 0 where
  value _ _ := starts
  monotone _ _ _ _ := Nat.le_refl 0
  newest := rfl

/-- What a load returns lies between what the reader knew and the current count. -/
theorem Counts.loaded (h : l.Counts encode count now) {seen v : Nat} (may : l.MayLoad seen v) :
    l.order v = encode (count v) ∧ count seen ≤ count v ∧ count v ≤ now := by
  refine ⟨h.value v may.2, h.monotone _ _ may.1 may.2, ?_⟩
  rw [← h.newest]
  exact h.monotone _ _ may.2 (Nat.le_refl _)

/-- The writer's own load. -/
theorem Counts.value_eq (h : l.Counts encode count now) : l.value = encode now := by
  rw [← h.newest]
  exact h.value _ (Nat.le_refl _)

theorem Counts.store (h : l.Counts encode count now) (next : Nat) (le : now ≤ next) :
    (l.store (encode next)).Counts encode (Function.update count (l.latest + 1) next) next where
  value v below := by
    by_cases last : v = l.latest + 1
    · subst v
      simp [SharedLocation.store]
    · simp only [SharedLocation.store, Function.update_of_ne last]
      exact h.value v (by simp only [store_latest] at below; omega)
  monotone v w order below := by
    simp only [store_latest] at below
    by_cases last : w = l.latest + 1
    · subst w
      rw [Function.update_self]
      by_cases same : v = l.latest + 1
      · rw [same, Function.update_self]
      · rw [Function.update_of_ne same]
        have old := h.monotone v l.latest (by omega) (Nat.le_refl _)
        rw [h.newest] at old
        omega
    · rw [Function.update_of_ne last, Function.update_of_ne (by omega)]
      exact h.monotone v w order (by omega)
  newest := Function.update_self ..

/-- A reader's past observations are not rewritten by a store. -/
theorem Counts.seen_store {seen next : Nat} (known : seen ≤ l.latest) :
    Function.update count (l.latest + 1) next seen = count seen :=
  Function.update_of_ne (by omega) _ _

end SharedLocation

end BandleCxl.Library
