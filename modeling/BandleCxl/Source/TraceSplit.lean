import Mathlib.Data.Fin.Basic
import BandleCxl.Library.Decimal
import BandleCxl.Source.TraceGen

/-!
`main` of the splitter (`src/bandle_trace_gen.cpp`): the two passes over the dataset and the
padding. There are `n + 1` nodes, and node 1 is index 0. The output files are other files
than the dataset; arguments that do not parse, files that do not open and the printed
summary are left out.
-/
namespace BandleCxl.Source
open Library

/-- A regular file. Its size is a signed 64-bit offset. -/
structure Dataset where
  bytes : Bytes
  size : bytes.length < 2 ^ 63

def Dataset.lines (d : Dataset) : List Bytes := linesOf d.bytes

/-- The loop that both passes have over the lines: skip what `parse_line` rejects and stop
at `max_ops`. Of the parsed line only `ts_us` and `op` are read, and these do not depend
on what the reused `op` held. -/
def scanDataset {σ : Type*} (maxOps : Nat) (total : σ → Nat) (count : σ → Bytes → ParsedOp → σ) :
    List Bytes → σ → σ
  | [], s => s
  | line :: lines, s =>
    match parseLine line {} with
    | none => scanDataset maxOps total count lines s
    | some op =>
      if maxOps > 0 ∧ total s ≥ maxOps then s
      else scanDataset maxOps total count lines (count s line op)

/-- The variables of pass 1; `chosen` records the lines it counts and is read by nothing. -/
structure FirstPass where
  total : Nat := 0
  endTsUs : Nat := 0
  chosen : List Bytes := []

def FirstPass.count (s : FirstPass) (line : Bytes) (op : ParsedOp) : FirstPass where
  total := add64 s.total 1
  endTsUs := op.tsUs
  chosen := s.chosen ++ [line]

def firstPass (maxOps : Nat) (lines : List Bytes) : FirstPass :=
  scanDataset maxOps FirstPass.total FirstPass.count lines {}

/-- The variables of pass 2 and the lines written to the files. -/
structure Splitter (n : Nat) where
  total : Nat := 0
  lastTs : Fin (n + 1) → Nat := fun _ => 0
  readCounts : Fin (n + 1) → Nat := fun _ => 0
  writeCounts : Fin (n + 1) → Nat := fun _ => 0
  outs : Fin (n + 1) → List Bytes := fun _ => []
  chosen : List Bytes := []

/-- `best_count`, `best_last_ts` and `best`. -/
structure Best (n : Nat) where
  count : Nat := 2 ^ 64 - 1
  lastTs : Nat := 2 ^ 64 - 1
  node : Fin (n + 1) := 0

variable {n : Nat}

def Best.consider (counts lastTs : Fin (n + 1) → Nat) (best : Best n) (i : Fin (n + 1)) : Best n :=
  if counts i < best.count ∨ counts i = best.count ∧ lastTs i < best.lastTs then
    { count := counts i, lastTs := lastTs i, node := i }
  else best

/-- The loop over the nodes: the smallest count, then the earliest last timestamp. -/
def bestNode (counts lastTs : Fin (n + 1) → Nat) : Fin (n + 1) :=
  ((List.finRange (n + 1)).foldl (Best.consider counts lastTs) {}).node

namespace Splitter

def targetNode (multinodeWrites : Bool) (s : Splitter n) (op : UInt8) : Fin (n + 1) :=
  if op = opG then bestNode s.readCounts s.lastTs
  else if multinodeWrites then bestNode s.writeCounts s.lastTs
  else 0

/-- One line of pass 2. -/
def count (multinodeWrites : Bool) (s : Splitter n) (line : Bytes) (op : ParsedOp) : Splitter n :=
  let i := s.targetNode multinodeWrites op.op
  { total := add64 s.total 1
    lastTs := Function.update s.lastTs i op.tsUs
    readCounts :=
      if op.op = opG then Function.update s.readCounts i (add64 (s.readCounts i) 1)
      else s.readCounts
    writeCounts :=
      if op.op = opG then s.writeCounts
      else Function.update s.writeCounts i (add64 (s.writeCounts i) 1)
    outs := Function.update s.outs i (s.outs i ++ [line])
    chosen := s.chosen ++ [line] }

/-- `<end_ts_us>,G __pad_node<i>` for node `i + 1`. -/
def padLine (endTsUs : Nat) (i : Fin (n + 1)) : Bytes :=
  decimal endTsUs ++ 44 :: 71 :: 32 :: [95, 95, 112, 97, 100, 95, 110, 111, 100, 101] ++
    decimal (i + 1)

def pad (endTsUs : Nat) (s : Splitter n) (i : Fin (n + 1)) : Splitter n :=
  if s.lastTs i < endTsUs then
    { s with
      outs := Function.update s.outs i (s.outs i ++ [padLine endTsUs i])
      lastTs := Function.update s.lastTs i endTsUs
      readCounts := Function.update s.readCounts i (add64 (s.readCounts i) 1)
      total := add64 s.total 1 }
  else s

end Splitter

def secondPass (maxOps : Nat) (multinodeWrites : Bool) (lines : List Bytes) : Splitter n :=
  scanDataset maxOps Splitter.total (Splitter.count multinodeWrites) lines {}

/-- `none` is the error "No valid operations found in input dataset". -/
def traceGen (dataset : Dataset) (maxOps : Nat) (multinodeWrites : Bool) : Option (Splitter n) :=
  let endTsUs := (firstPass maxOps dataset.lines).endTsUs
  if endTsUs = 0 then none
  else
    let s := secondPass maxOps multinodeWrites dataset.lines
    some ((List.finRange (n + 1)).foldl (Splitter.pad endTsUs) s)

end BandleCxl.Source
