import Mathlib.Data.Fintype.Card

/-!
Threads, where they stand and what they hold. A lock records as its owner the thread that holds
it, and a counter counts the threads that stand in certain places.
-/
namespace BandleCxl.Library

variable {ι β : Type*}

/-- A lock is owned by the thread that holds it, and a thread holds at most one lock. -/
def Owns (owner : β → Option ι) (held : ι → Option β) : Prop :=
  ∀ m t, owner m = some t ↔ held t = some m

namespace Owns

variable {owner : β → Option ι} {held : ι → Option β} {m : β} {t : ι}

theorem only (h : Owns owner held) {u : ι} (first : held t = some m) (second : held u = some m) :
    t = u :=
  Option.some.inj (((h m t).mpr first).symm.trans ((h m u).mpr second))

theorem not_held (h : Owns owner held) (free : owner m = none) (u : ι) : held u ≠ some m := by
  intro holds
  rw [(h m u).mpr holds] at free
  cases free

variable [DecidableEq ι]

theorem same (h : Owns owner held) {now : Option β} (unchanged : held t = now) :
    Owns owner (Function.update held t now) := by
  rw [← unchanged, Function.update_eq_self]
  exact h

variable [DecidableEq β]

theorem take (h : Owns owner held) (free : owner m = none) (empty : held t = none) :
    Owns (Function.update owner m (some t)) (Function.update held t (some m)) := by
  intro m' u
  have holder := h m' u
  have other := h.not_held free u
  rcases eq_or_ne m' m with rfl | lock <;> rcases eq_or_ne u t with rfl | thread
  · simp
  · simpa [thread, thread.symm] using other
  · simpa [lock, lock.symm, empty] using holder
  · simpa [lock, thread] using holder

theorem give (h : Owns owner held) (holds : held t = some m) :
    Owns (Function.update owner m none) (Function.update held t none) := by
  intro m' u
  have holder := h m' u
  rcases eq_or_ne m' m with rfl | lock <;> rcases eq_or_ne u t with rfl | thread
  · simp
  · have other : held u ≠ some m' := fun second => thread (h.only second holds)
    simpa [thread] using other
  · rw [Function.update_of_ne lock, Function.update_self, holder, holds]
    simp [lock.symm]
  · rw [Function.update_of_ne lock, Function.update_of_ne thread, holder]

end Owns

/-- The threads that stand in a place of a kind. -/
def standing [Fintype ι] (kind : β → Bool) (place : ι → β) : Finset ι :=
  Finset.univ.filter fun t => kind (place t) = true

section
variable [Fintype ι] {kind : β → Bool} {place : ι → β} {t : ι} {next : β}

theorem mem_standing : t ∈ standing kind place ↔ kind (place t) = true := by
  simp [standing]

variable [DecidableEq ι]

theorem standing_same (same : kind (place t) = kind next) :
    standing kind (Function.update place t next) = standing kind place := by
  ext u
  rw [mem_standing, mem_standing]
  rcases eq_or_ne u t with rfl | other
  · rw [Function.update_self, same]
  · rw [Function.update_of_ne other]

theorem card_standing_enter (before : kind (place t) = false) (after : kind next = true) :
    (standing kind (Function.update place t next)).card = (standing kind place).card + 1 := by
  have absent : t ∉ standing kind place := by simp [mem_standing, before]
  have joined : standing kind (Function.update place t next) = insert t (standing kind place) := by
    ext u
    rw [Finset.mem_insert, mem_standing, mem_standing]
    rcases eq_or_ne u t with rfl | other
    · simp [after]
    · simp [other]
  rw [joined, Finset.card_insert_of_notMem absent]

theorem card_standing_leave (before : kind (place t) = true) (after : kind next = false) :
    (standing kind (Function.update place t next)).card + 1 = (standing kind place).card := by
  have member : t ∈ standing kind place := mem_standing.mpr before
  have left : standing kind (Function.update place t next) = (standing kind place).erase t := by
    ext u
    rw [Finset.mem_erase, mem_standing, mem_standing]
    rcases eq_or_ne u t with rfl | other
    · simp [after]
    · simp [other]
  rw [left, Finset.card_erase_add_one member]

end

end BandleCxl.Library
