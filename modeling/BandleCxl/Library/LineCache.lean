import BandleCxl.Library.Memory

/-!
A reader's private cache over memory that is not kept coherent by hardware. A line
once loaded answers every later read of its addresses until it is evicted or
flushed; a store by someone else goes to memory and does not touch it.
-/
namespace BandleCxl.Library

def lineBytes : Nat := 64

/-- The copy of each line that is held, as the memory it was loaded from. -/
abbrev LineCache := Nat → Option Mem

namespace LineCache

/-- What the reader sees: its copy where it holds one, else memory. -/
def view (c : LineCache) (m : Mem) : Mem := fun a =>
  match c (a / lineBytes) with
  | some copy => copy a
  | none => m a

/-- Loading a line, unless it is held already. -/
def fill (c : LineCache) (m : Mem) (line : Nat) : LineCache :=
  if (c line).isSome then c else Function.update c line (some m)

/-- Reading a range loads all its lines. -/
def fillRange (c : LineCache) (m : Mem) (addr len : Nat) : LineCache := fun line =>
  if (c line).isNone ∧ addr / lineBytes ≤ line ∧ line ≤ (addr + len - 1) / lineBytes then some m
  else c line

def evict (c : LineCache) (line : Nat) : LineCache := Function.update c line none

/-- The reader sees what memory holds in a range. -/
def Fresh (c : LineCache) (m : Mem) (addr len : Nat) : Prop :=
  ∀ a, addr ≤ a → a < addr + len → c.view m a = m a

/-- No line of a range is held. -/
def Uncached (c : LineCache) (addr len : Nat) : Prop :=
  ∀ a, addr ≤ a → a < addr + len → c (a / lineBytes) = none

variable {c : LineCache} {m m' : Mem} {addr len : Nat}

theorem Uncached.fresh (h : c.Uncached addr len) : c.Fresh m addr len := by
  intro a lo hi
  simp only [view, h a lo hi]

theorem Fresh.load (h : c.Fresh m addr len) : (c.view m).load addr len = m.load addr len :=
  Mem.load_congr h

/-- A new copy of a line is a copy of current memory. -/
theorem Fresh.fill (h : c.Fresh m addr len) (line : Nat) : (c.fill m line).Fresh m addr len := by
  intro a lo hi
  unfold LineCache.fill
  split
  · exact h a lo hi
  · by_cases here : a / lineBytes = line
    · simp [view, here]
    · have same := h a lo hi
      simp only [view, Function.update_of_ne here] at same ⊢
      exact same

theorem Fresh.fillRange (h : c.Fresh m addr len) (from_ count : Nat) :
    (c.fillRange m from_ count).Fresh m addr len := by
  intro a lo hi
  have same := h a lo hi
  simp only [view, LineCache.fillRange] at same ⊢
  split_ifs
  · rfl
  · exact same

theorem Fresh.evict (h : c.Fresh m addr len) (line : Nat) : (c.evict line).Fresh m addr len := by
  intro a lo hi
  have same := h a lo hi
  by_cases here : a / lineBytes = line
  · simp [view, LineCache.evict, here]
  · simp only [view, LineCache.evict, Function.update_of_ne here] at same ⊢
    exact same

/-- A store elsewhere changes neither memory nor the copies in the range. -/
theorem Fresh.store_elsewhere (h : c.Fresh m addr len)
    (outside : ∀ a, addr ≤ a → a < addr + len → m' a = m a) : c.Fresh m' addr len := by
  intro a lo hi
  have same := h a lo hi
  simp only [view] at same ⊢
  split
  · next copy held =>
    rw [held] at same
    rw [outside a lo hi]
    exact same
  · rfl

end LineCache

end BandleCxl.Library
