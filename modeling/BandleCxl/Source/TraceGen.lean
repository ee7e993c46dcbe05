import BandleCxl.Source.Replay
import BandleCxl.Source.TextInput

/-!
`parse_line` of the splitter (`src/bandle_trace_gen.cpp`), which decides which lines
of a dataset are copied, verbatim, into a node's dataset.
-/
namespace BandleCxl.Source
open Library

structure ParsedOp where
  tsUs : Nat := 0
  op : UInt8 := opG
  key : Bytes := []
  value : Bytes := []
  deriving DecidableEq, Repr

/-- Key and value of the text after the operation. A read or a delete takes all of it as
the key and leaves the value of the reused `out` as it is. -/
def splitRequest (op : UInt8) (rest oldValue : Bytes) : Option (Bytes × Bytes) :=
  if op = opP ∨ op = opU then
    (rest.idxOf? 58).map fun pos => (rest.take pos, rest.drop (pos + 1))
  else if op = opD ∨ op = opG then some (rest, oldValue)
  else none

def parseLine (line : Bytes) (out : ParsedOp) : Option ParsedOp :=
  if line.isEmpty || line.head? == some 35 then none
  else
    match line.idxOf? 44 with
    | none => none
    | some comma =>
      let tsStr := line.take comma
      let req := dropLineEnd (line.drop (comma + 1))
      if req.length < 3 ∨ req.getD 1 0 ≠ 32 then none
      else
        match splitRequest (req.getD 0 0) (req.drop 2) out.value with
        | none => none
        | some (key, value) =>
          (stoull tsStr).map fun ts => { tsUs := ts, op := req.getD 0 0, key := key, value := value }

end BandleCxl.Source
