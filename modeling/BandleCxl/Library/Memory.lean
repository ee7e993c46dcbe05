import Mathlib.Tactic

/-!
Flat byte memory. A buffer is a total function on offsets; a `store` writes a
byte list at an address and a `load` reads a range back as a list. The lemmas
are the read-over-write facts every copy in the model reduces to.
-/
namespace BandleCxl.Library

abbrev Bytes := List UInt8

abbrev Mem := Nat → UInt8

namespace Mem

def store (m : Mem) (addr : Nat) (bytes : Bytes) : Mem := fun a =>
  if addr ≤ a ∧ a < addr + bytes.length then bytes.getD (a - addr) 0 else m a

def load (m : Mem) (addr len : Nat) : Bytes :=
  (List.range len).map fun i => m (addr + i)

/-- The memory that holds a byte list at offset zero. -/
def ofBytes (bytes : Bytes) : Mem := fun a => bytes.getD a 0

@[simp] theorem load_length (m : Mem) (addr len : Nat) : (m.load addr len).length = len := by
  simp [load]

theorem load_getD (m : Mem) (addr len i : Nat) (inside : i < len) :
    (m.load addr len).getD i 0 = m (addr + i) := by
  simp [load, List.getD, inside]

theorem load_congr {m m' : Mem} {addr len : Nat}
    (same : ∀ a, addr ≤ a → a < addr + len → m a = m' a) : m.load addr len = m'.load addr len := by
  simp only [load]
  apply List.map_congr_left
  intro i member
  exact same _ (by omega) (by have := List.mem_range.mp member; omega)

theorem load_eq_iff {m m' : Mem} {addr addr' len : Nat} :
    m.load addr len = m'.load addr' len ↔ ∀ i < len, m (addr + i) = m' (addr' + i) := by
  simp only [load, List.map_inj_left, List.mem_range]

theorem store_outside {m : Mem} {addr a : Nat} {bytes : Bytes}
    (outside : a < addr ∨ addr + bytes.length ≤ a) : m.store addr bytes a = m a := by
  have absent : ¬ (addr ≤ a ∧ a < addr + bytes.length) := by omega
  simp [store, absent]

theorem store_inside {m : Mem} {addr i : Nat} {bytes : Bytes} (inside : i < bytes.length) :
    m.store addr bytes (addr + i) = bytes.getD i 0 := by
  simp [store, inside]

@[simp] theorem store_nil (m : Mem) (addr : Nat) : m.store addr [] = m := by
  funext a
  exact store_outside (by simp; omega)

/-- A load that stays off the stored range does not see the store. -/
theorem load_store_disjoint {m : Mem} {addr addr' len : Nat} {bytes : Bytes}
    (disjoint : addr' + len ≤ addr ∨ addr + bytes.length ≤ addr') :
    (m.store addr bytes).load addr' len = m.load addr' len :=
  load_congr fun a _ _ => store_outside (by omega)

theorem load_store_self (m : Mem) (addr : Nat) (bytes : Bytes) :
    (m.store addr bytes).load addr bytes.length = bytes := by
  apply List.ext_getElem
  · simp
  · intro i _ inside
    simp [load, store_inside inside, inside]

/-- A copied range reads back as the range it was copied from. -/
theorem load_store_load (m src : Mem) (addr from_ n len : Nat) (short : len ≤ n) :
    (m.store addr (src.load from_ n)).load addr len = src.load from_ len := by
  rw [load_eq_iff]
  intro i inside
  rw [store_inside (by rw [load_length]; omega), load_getD _ _ _ _ (by omega)]

/-- The tail of a copied range, read from an offset into it. -/
theorem load_store_load_tail (m src : Mem) (addr from_ n off len : Nat) (short : off + len ≤ n) :
    (m.store addr (src.load from_ n)).load (addr + off) len = src.load (from_ + off) len := by
  rw [load_eq_iff]
  intro i inside
  rw [Nat.add_assoc, store_inside (by rw [load_length]; omega), load_getD _ _ _ _ (by omega),
    Nat.add_assoc]

theorem take_load (m : Mem) (addr len short : Nat) :
    (m.load addr len).take short = m.load addr (min len short) := by
  simp only [load, ← List.map_take, List.take_range, Nat.min_comm]

/-! ### Copying a range in pieces -/

/-- The memory after `len` bytes at `src` have been copied to `dst`. -/
def copyRange (m : Mem) (dst src len : Nat) : Mem := m.store dst (m.load src len)

theorem copyRange_zero (m : Mem) (dst src : Nat) : m.copyRange dst src 0 = m := store_nil m dst

theorem copyRange_inside (m : Mem) (dst src : Nat) {len i : Nat} (inside : i < len) :
    m.copyRange dst src len (dst + i) = m (src + i) := by
  rw [copyRange, store_inside (by rw [load_length]; exact inside), load_getD _ _ _ _ inside]

theorem copyRange_outside (m : Mem) {dst src len a : Nat} (outside : a < dst ∨ dst + len ≤ a) :
    m.copyRange dst src len a = m a :=
  store_outside (by rw [load_length]; exact outside)

theorem store_append (m : Mem) (addr : Nat) (first rest : Bytes) :
    m.store addr (first ++ rest) = (m.store addr first).store (addr + first.length) rest := by
  funext a
  simp only [store, List.length_append, List.getD_eq_getElem?_getD]
  by_cases late : addr + first.length ≤ a
  · rw [List.getElem?_append_right (by omega), Nat.sub_sub]
    by_cases inside : a < addr + first.length + rest.length
    · rw [if_pos (by omega), if_pos ⟨late, inside⟩]
    · rw [if_neg (by omega), if_neg (by omega), if_neg (by omega)]
  · rw [if_neg (show ¬(addr + first.length ≤ a ∧ _) by omega)]
    by_cases inside : addr ≤ a
    · rw [if_pos (by omega), if_pos (by omega), List.getElem?_append_left (by omega)]
    · rw [if_neg (by omega), if_neg (by omega)]

theorem load_add (m : Mem) (addr len len' : Nat) :
    m.load addr (len + len') = m.load addr len ++ m.load (addr + len) len' := by
  simp only [load, List.range_add, List.map_append, List.map_map, Function.comp_def, Nat.add_assoc]

/-- The next piece of a copy, with padding behind it. The piece is read from bytes that the
copy has not touched. -/
theorem copyRange_step (m : Mem) {dst src len k n : Nat}
    (disjoint : src + len ≤ dst ∨ dst + len ≤ src) (short : k + n ≤ len) (pad : Bytes) :
    (m.copyRange dst src k).store (dst + k) ((m.copyRange dst src k).load (src + k) n ++ pad) =
      (m.copyRange dst src (k + n)).store (dst + (k + n)) pad := by
  have read : (m.copyRange dst src k).load (src + k) n = m.load (src + k) n :=
    load_store_disjoint (by rw [load_length]; omega)
  have joined : (m.copyRange dst src k).store (dst + k) (m.load (src + k) n) =
      m.copyRange dst src (k + n) := by
    rw [copyRange, copyRange, load_add, store_append, load_length]
  rw [read, store_append, joined, load_length, Nat.add_assoc]

theorem copyRange_advance (m : Mem) {dst src len k n : Nat}
    (disjoint : src + len ≤ dst ∨ dst + len ≤ src) (short : k + n ≤ len) :
    (m.copyRange dst src k).store (dst + k) ((m.copyRange dst src k).load (src + k) n) =
      m.copyRange dst src (k + n) := by
  have step := copyRange_step m disjoint short []
  rwa [List.append_nil, store_nil] at step

end Mem

end BandleCxl.Library
