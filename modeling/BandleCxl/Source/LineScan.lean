import BandleCxl.Source.Replay

/-!
`parse_u64` and `parse_line_view` (`src/main.cpp`) as they read memory: a pointer is an
offset from the start of the line, and reading a byte that is not part of the line is a
fault, the outer `none`.
-/
namespace BandleCxl.Source
open Library

/-- `memchr` reads one byte after the other, up to the first match. -/
def memchr (w : Bytes) (c : UInt8) : (p n : Nat) → Option (Option Nat)
  | _, 0 => some none
  | p, n + 1 => do
    let b ← w[p]?
    if b = c then some (some p) else memchr w c (p + 1) n

/-- The loop of `parse_u64` with `n` bytes before `end`. -/
def parseU64Scan (w : Bytes) : (p n v : Nat) → Option (Option Nat)
  | _, 0, v => some (some v)
  | p, n + 1, v => do
    let b ← w[p]?
    if b < 48 ∨ b > 57 then some none
    else parseU64Scan w (p + 1) n (add64 (mul64 v 10) (b - 48).toNat)

def parseU64At (w : Bytes) (p stop : Nat) : Option (Option Nat) :=
  if p ≥ stop then some none else parseU64Scan w p (stop - p) 0

/-- The loop that lowers `len` over line ends. -/
def stripLineEnd (w : Bytes) : Nat → Option Nat
  | 0 => some 0
  | len + 1 => do
    let b ← w[len]?
    if b = 10 ∨ b = 13 then stripLineEnd w len else some (len + 1)

/-- `ParsedLineView` with offsets for pointers. -/
structure LineView where
  tsUs : Nat
  op : UInt8
  keyPtr : Nat
  keyLen : Nat
  valuePtr : Option Nat
  valueLen : Nat
  deriving DecidableEq, Repr

/-- The part of `parse_line_view` from the key on. -/
def parseKeyAt (w : Bytes) (ts : Nat) (op : UInt8) (key stop : Nat) : Option (Option LineView) := do
  let found ← memchr w 58 key (stop - key)
  let value := found.map (· + 1)
  let colon := found.getD stop
  if key ≥ colon then some none
  else
    some (some {
      tsUs := ts
      op := op
      keyPtr := key
      keyLen := (colon - key) % 2 ^ 32
      valuePtr := value
      valueLen := match value with
        | some value => (stop - value) % 2 ^ 32
        | none => 0 })

def parseLineViewAt (w : Bytes) : Option (Option LineView) :=
  if w.length = 0 then some none
  else do
    let first ← w[0]?
    if first = 35 then some none
    else
      let stop ← stripLineEnd w w.length
      match ← memchr w 44 0 stop with
      | none => some none
      | some comma =>
        if comma + 3 > stop then some none
        else
          match ← parseU64At w 0 comma with
          | none => some none
          | some ts =>
            let op ← w[comma + 1]?
            let space ← w[comma + 2]?
            if space ≠ 32 then some none else parseKeyAt w ts op (comma + 3) stop

end BandleCxl.Source
