import BandleCxl.Library.Decimal
import BandleCxl.Source.Message

/-!
The YCSB binding (`ycsb_binding/CxlTraceDB.java`) from a call to the line it appends.
A string is its UTF-16 code units. The writer encodes with the platform's default
charset, which is a parameter with the properties of ASCII-compatible charsets such as
UTF-8 or ISO-8859-1. The choice of the node file is left out, and so is the floating point
sum of the inter-arrival times, of which the rounded value is an argument.
-/
namespace BandleCxl.Source
open Library

abbrev JChars := List UInt16

/-- What a Java string can hold: `2 ^ 31` bytes, one for each code unit if all are below
256, and two otherwise. -/
def JavaSized (s : JChars) : Prop :=
  2 * s.length < 2 ^ 31 ∨ (∀ c ∈ s, c < 256) ∧ s.length < 2 ^ 31

/-- An ASCII-compatible charset. -/
structure Charset where
  encode : JChars → Bytes
  encode_nil : encode [] = []
  /-- an ASCII character is its byte, wherever it stands -/
  ascii : ∀ before c after, c < 128 →
    encode (before ++ c :: after) = encode before ++ c.toUInt8 :: encode after
  /-- the bytes of colon and line end stand for nothing else -/
  separator : ∀ s, ∀ b ∈ encode s, b = 58 ∨ b = 10 ∨ b = 13 → b.toUInt16 ∈ s
  encode_ne_nil : ∀ s, s ≠ [] → encode s ≠ []
  width : ∀ s, (encode s).length ≤ 3 * s.length
  latin : ∀ s, (∀ c ∈ s, c < 256) → (encode s).length ≤ 2 * s.length

/-- The static fields that the calls read, after `init`. The `int`s are signed 32-bit. -/
structure Binding where
  keyBytes : Nat
  maxPayload : Int
  preloadCount : Int
  fixedValue : Option JChars
  key_pos : 1 ≤ keyBytes

def buildFixedValue (bytes : Int) : JChars := if bytes ≤ 0 then [] else List.replicate bytes.toNat 118

/-- `init` raises the key length to one and the value length to zero. -/
def Binding.init (keyBytes valueBytes maxPayload preloadCount : Int) : Binding where
  keyBytes := if keyBytes < 1 then 1 else keyBytes.toNat
  maxPayload := maxPayload
  preloadCount := preloadCount
  fixedValue := some (buildFixedValue (if valueBytes < 0 then 0 else valueBytes))
  key_pos := by split <;> omega

namespace Binding

variable (b : Binding)

/-- Cut or pad the key to `keyBytes` characters; `null` counts as empty. -/
def normalizeKey (key : Option JChars) : JChars :=
  let key := key.getD []
  if key.length = b.keyBytes then key
  else if key.length > b.keyBytes then key.take b.keyBytes
  else key ++ List.replicate (b.keyBytes - key.length) 48

/-- The value that `buildPayload` appends; `null` counts as empty. -/
def payloadValue (verb key : JChars) (value : Option JChars) : JChars :=
  let value := value.getD []
  let maxValueLen := int32 (b.maxPayload - int32 (verb.length + 1 + key.length + 1))
  let maxValueLen := if maxValueLen < 1 then 1 else maxValueLen
  if (value.length : Int) > maxValueLen then value.take maxValueLen.toNat else value

def buildPayload (verb key : JChars) (value : Option JChars) : JChars :=
  verb ++ 32 :: key ++ 58 :: b.payloadValue verb key value

end Binding

/-- The calls that append a line, with their key. -/
inductive YcsbCall where
  | insert (key : Option JChars)
  | update (key : Option JChars)
  | read (key : Option JChars)
  | delete (key : Option JChars)

namespace YcsbCall

def key : YcsbCall → Option JChars
  | .insert key | .update key | .read key | .delete key => key

/-- The text handed to `appendLine`; `opIndex` is the call's number. An update is a put,
and so is a read among the first `preloadCount` calls. -/
def line (b : Binding) (opIndex : Nat) : YcsbCall → JChars
  | .insert key => b.buildPayload [80] (b.normalizeKey key) b.fixedValue
  | .update key => b.buildPayload [80] (b.normalizeKey key) b.fixedValue
  | .read key =>
    if b.preloadCount > 0 ∧ opIndex < b.preloadCount then
      b.buildPayload [80] (b.normalizeKey key) b.fixedValue
    else [71, 32] ++ b.normalizeKey key
  | .delete key => [68, 32] ++ b.normalizeKey key

end YcsbCall

/-- The bytes of one line without the line separator: `Long.toString(ts)`, a comma and the
text. -/
def appendLine (charset : Charset) (ts : Nat) (line : JChars) : Bytes :=
  charset.encode ((decimal ts).map (·.toUInt16) ++ 44 :: line)

/-- `nextTimestampUs` with the new `lastEmittedTimestampUs`; `floored` is
`(long) Math.floor(timestampAccUs)` after the addition. -/
def nextTimestampUs (qpsPositive : Bool) (floored lastEmitted : Nat) : Nat × Nat :=
  if ¬qpsPositive then (lastEmitted, lastEmitted)
  else if floored < lastEmitted then (lastEmitted, lastEmitted)
  else (floored, floored)

/-- The file that a sequence of calls appends to one writer, each with the rounded sum it
finds. -/
def traceFile (charset : Charset) (b : Binding) (qpsPositive : Bool) (separator : Bytes) :
    List (YcsbCall × Nat) → (opIndex lastEmitted : Nat) → Bytes
  | [], _, _ => []
  | (call, floored) :: calls, opIndex, lastEmitted =>
    let (ts, lastEmitted) := nextTimestampUs qpsPositive floored lastEmitted
    appendLine charset ts (call.line b opIndex) ++ separator ++
      traceFile charset b qpsPositive separator calls (opIndex + 1) lastEmitted

/-- ISO-8859-1, with a question mark for what it does not have. -/
def latin1 : Charset where
  encode s := s.map fun c => if c < 256 then c.toUInt8 else 63
  encode_nil := rfl
  ascii before c after small := by
    have byte : c < 256 := by
      rw [UInt16.lt_iff_toNat_lt] at small ⊢
      simp at small ⊢
      omega
    simp [byte]
  separator s b member special := by
    obtain ⟨c, char, rfl⟩ := List.mem_map.mp member
    split at special
    · next byte =>
      have same : c.toUInt8.toUInt16 = c := by
        rw [UInt16.lt_iff_toNat_lt] at byte
        rw [← UInt16.toNat_inj]
        simp at byte ⊢
        omega
      rw [if_pos byte, same]
      exact char
    · exact absurd special (by decide)
  encode_ne_nil s some := by simpa using some
  width s := by simp; omega
  latin s _ := by simp; omega

end BandleCxl.Source
