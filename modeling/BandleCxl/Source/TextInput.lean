import Mathlib.Data.List.TakeWhile
import BandleCxl.Library.Decimal
import BandleCxl.Library.Text
import BandleCxl.Source.Message

/-!
The parts of the C++ standard library that the text readers use. A thrown exception
is `none`.
-/
namespace BandleCxl.Source
open Library

/-- `isspace` in the C locale. -/
def isSpace (b : UInt8) : Bool := b == 32 || decide (9 ≤ b ∧ b ≤ 13)

/-- The sign that `strtoull` accepts and the text after it. -/
def splitSign : Bytes → Bool × Bytes
  | [] => (false, [])
  | b :: rest =>
    if b = 45 then (true, rest) else if b = 43 then (false, rest) else (false, b :: rest)

/-- `std::stoull` in base ten. Leading white space and a sign are skipped and text after
the digits is ignored; no digit, or a magnitude beyond 64 bits, throws; a minus sign
negates modulo `2 ^ 64`. -/
def stoull (text : Bytes) : Option Nat :=
  let signed := splitSign (text.dropWhile isSpace)
  let digits := signed.2.takeWhile isDigit
  if digits.isEmpty then none
  else if readDigits 0 digits ≥ 2 ^ 64 then none
  else some (if signed.1 then sub64 0 (readDigits 0 digits) else readDigits 0 digits)

/-- `std::stoi`: as `std::stoull`, but what does not fit a signed 32-bit `int` throws. -/
def stoi (text : Bytes) : Option Int :=
  let signed := splitSign (text.dropWhile isSpace)
  let digits := signed.2.takeWhile isDigit
  let value : Int := if signed.1 then -readDigits 0 digits else readDigits 0 digits
  if digits.isEmpty then none
  else if value < -2 ^ 31 ∨ value ≥ 2 ^ 31 then none
  else some value

/-- An input stream: the text not yet read and the two state bits. -/
structure TextStream where
  rest : Bytes
  eofbit : Bool := false
  failbit : Bool := false
  deriving DecidableEq, Repr

/-- `std::getline(in, str, delim)`. A stream that is not good leaves the string as it was;
a delimiter is taken off the stream and not stored; nothing to read fails. -/
def TextStream.getline (ss : TextStream) (str : Bytes) (delim : UInt8) : Bytes × TextStream :=
  if ss.eofbit || ss.failbit then (str, { ss with failbit := true })
  else
    match ss.rest.idxOf? delim with
    | some n => (ss.rest.take n, { ss with rest := ss.rest.drop (n + 1) })
    | none => (ss.rest, { rest := [], eofbit := true, failbit := ss.rest.isEmpty })

theorem isDigit_iff {b : UInt8} : isDigit b = true ↔ 48 ≤ b.toNat ∧ b.toNat ≤ 57 := by
  simp [isDigit, UInt8.le_iff_toNat_le]

theorem decimal_range (n : Nat) : ∀ b ∈ decimal n, 48 ≤ b.toNat ∧ b.toNat ≤ 57 :=
  fun b member => isDigit_iff.mp (decimal_digits n b member)

/-- Separators do not occur in numbers. -/
theorem not_mem_decimal {b : UInt8} (outside : isDigit b = false) (n : Nat) : b ∉ decimal n := by
  intro member
  rw [decimal_digits n b member] at outside
  cases outside

theorem isDigit_not_space {b : UInt8} (digit : isDigit b = true) :
    isSpace b = false ∧ b ≠ 45 ∧ b ≠ 43 := by
  obtain ⟨lo, hi⟩ := isDigit_iff.mp digit
  refine ⟨?_, ?_, ?_⟩
  · simp only [isSpace, Bool.or_eq_false_iff, beq_eq_false_iff_ne, ne_eq, decide_eq_false_iff_not,
      UInt8.le_iff_toNat_le, ← UInt8.toNat_inj, UInt8.reduceToNat]
    omega
  · rintro rfl
    simp at lo
  · rintro rfl
    simp at lo

/-- Digits have neither white space nor a sign before them. -/
theorem splitSign_digits {text : Bytes} (digits : ∀ b ∈ text, isDigit b = true) :
    splitSign (text.dropWhile isSpace) = (false, text) ∧ text.takeWhile isDigit = text := by
  refine ⟨?_, List.takeWhile_eq_self_iff.mpr digits⟩
  cases text with
  | nil => rfl
  | cons b rest =>
    obtain ⟨space, minus, plus⟩ := isDigit_not_space (digits b (by simp))
    rw [List.dropWhile_cons_of_neg (by simp [space])]
    simp only [splitSign, minus, plus, if_false]

/-- Text that consists of digits only. -/
theorem stoull_digits {text : Bytes} (digits : ∀ b ∈ text, isDigit b = true)
    (nonempty : text ≠ []) :
    stoull text = if readDigits 0 text ≥ 2 ^ 64 then none else some (readDigits 0 text) := by
  obtain ⟨signed, whole⟩ := splitSign_digits digits
  unfold stoull
  rw [signed]
  dsimp only
  rw [whole, if_neg (by simpa using nonempty)]
  rfl

theorem stoull_decimal {n : Nat} (small : n < 2 ^ 64) : stoull (decimal n) = some n := by
  rw [stoull_digits (decimal_digits n) (decimal_ne_nil n), readDigits_decimal,
    if_neg (Nat.not_le.mpr small)]

theorem stoi_decimal {n : Nat} (small : n < 2 ^ 31) : stoi (decimal n) = some (n : Int) := by
  obtain ⟨signed, whole⟩ := splitSign_digits (decimal_digits n)
  unfold stoi
  rw [signed]
  dsimp only
  rw [whole, readDigits_decimal, if_neg (by simpa using decimal_ne_nil n)]
  have inRange : ¬((n : Int) < -2 ^ 31 ∨ (n : Int) ≥ 2 ^ 31) := by omega
  simp only [if_neg inRange, if_false, Bool.false_eq_true]

namespace TextStream

theorem getline_delim {first : Bytes} {delim : UInt8} (absent : delim ∉ first)
    (rest str : Bytes) :
    getline { rest := first ++ delim :: rest } str delim = (first, { rest := rest }) := by
  unfold getline
  rw [if_neg (by simp)]
  dsimp only
  rw [idxOf?_append_cons absent]
  simp

/-- The last piece of the text has no delimiter after it. -/
theorem getline_last {last : Bytes} {delim : UInt8} (absent : delim ∉ last)
    (nonempty : last ≠ []) (str : Bytes) :
    getline { rest := last } str delim = (last, { rest := [], eofbit := true }) := by
  unfold getline
  rw [if_neg (by simp)]
  dsimp only
  rw [List.idxOf?_eq_none_iff.mpr absent]
  simp [nonempty]

end TextStream

end BandleCxl.Source
