import Mathlib.Data.Nat.Digits.Defs
import BandleCxl.Library.Memory

/-!
Decimal text of natural numbers. Digits are ASCII bytes, most significant first;
reading continues from a value already read, as digit loops do.
-/
namespace BandleCxl.Library

def isDigit (b : UInt8) : Bool := decide (48 ≤ b ∧ b ≤ 57)

def digitValue (b : UInt8) : Nat := b.toNat - 48

/-- Read digits after the value `v`. -/
def readDigits (v : Nat) (text : Bytes) : Nat := text.foldl (fun v b => v * 10 + digitValue b) v

def digitByte (d : Nat) : UInt8 := UInt8.ofNat (48 + d)

/-- The decimal text of a number, without leading zeros. -/
def decimal (n : Nat) : Bytes :=
  if n = 0 then [48] else (Nat.digits 10 n).reverse.map digitByte

@[simp] theorem readDigits_nil (v : Nat) : readDigits v [] = v := rfl

@[simp] theorem readDigits_cons (v : Nat) (b : UInt8) (rest : Bytes) :
    readDigits v (b :: rest) = readDigits (v * 10 + digitValue b) rest := by
  unfold readDigits
  rw [List.foldl_cons]

theorem readDigits_append (v : Nat) (first second : Bytes) :
    readDigits v (first ++ second) = readDigits (readDigits v first) second := by
  unfold readDigits
  rw [List.foldl_append]

/-- Reading more digits never makes the value smaller. -/
theorem le_readDigits (v : Nat) (text : Bytes) : v ≤ readDigits v text := by
  induction text generalizing v with
  | nil => exact Nat.le_refl v
  | cons b rest ih =>
    rw [readDigits_cons]
    refine Nat.le_trans ?_ (ih _)
    omega

theorem digitByte_digit {d : Nat} (small : d < 10) :
    isDigit (digitByte d) = true ∧ digitValue (digitByte d) = d := by
  interval_cases d <;> decide

theorem readDigits_reverse {digits : List Nat} (small : ∀ d ∈ digits, d < 10) :
    readDigits 0 (digits.reverse.map digitByte) = Nat.ofDigits 10 digits := by
  induction digits with
  | nil => rfl
  | cons d rest ih =>
    have value := (digitByte_digit (small d (by simp))).2
    rw [List.reverse_cons, List.map_append, readDigits_append,
      ih fun d' member => small d' (by simp [member]), Nat.ofDigits_cons]
    simp only [List.map_cons, List.map_nil, readDigits_cons, readDigits_nil, value]
    omega

/-- What is printed reads back. -/
theorem readDigits_decimal (n : Nat) : readDigits 0 (decimal n) = n := by
  unfold decimal
  split
  · next zero =>
    subst n
    rfl
  · rw [readDigits_reverse fun d member => Nat.digits_lt_base (by decide) member,
      Nat.ofDigits_digits]

theorem decimal_digits (n : Nat) : ∀ b ∈ decimal n, isDigit b = true := by
  intro b member
  unfold decimal at member
  split at member
  · rw [List.mem_singleton.mp member]
    decide
  · obtain ⟨d, digit, rfl⟩ := List.mem_map.mp member
    exact (digitByte_digit (Nat.digits_lt_base (by decide) (List.mem_reverse.mp digit))).1

theorem decimal_ne_nil (n : Nat) : decimal n ≠ [] := by
  unfold decimal
  split
  · simp
  · next nonzero =>
    simpa using Nat.digits_ne_nil_iff_ne_zero.mpr nonzero

end BandleCxl.Library
