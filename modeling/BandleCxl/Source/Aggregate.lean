import Mathlib.Data.Rat.Cast.Order
import BandleCxl.Source.Replay
import BandleCxl.Source.Statistics
import BandleCxl.Source.TextInput

/-!
`bandle_aggregate` (`src/bandle_aggregate.cpp`): `parse_csv_file` and the loop of `main`
that merges the nodes. An exception of a number reader ends the program and is `none`.
Durations, rates and the printed summary are floating point and left out; of the mean only
the midpoint of a bucket is here, over any rounding of `long double`.
-/
namespace BandleCxl.Source
open Library LatencyHistogram

def bucketUpperValue (idx : Int) : UInt64 :=
  if idx + 1 < BUCKETS then bucketLowerValue (idx + 1)
  else
    let lower := bucketLowerValue idx
    if lower = 0 then 1 else lower <<< 1

/-- How `long double` rounds. Its significand holds 64 bits, so a `uint64_t` and twice a
`uint64_t` are exact; the sum of two can need one bit more. -/
structure LongDouble where
  round : ℚ → ℚ
  monotone : Monotone round
  exact_u64 : ∀ x : UInt64, round x.toNat = x.toNat
  exact_twice : ∀ x : UInt64, round (2 * x.toNat) = 2 * x.toNat

/-- `(static_cast<long double>(lo) + static_cast<long double>(hi)) / 2.0L` -/
def LongDouble.midpoint (fp : LongDouble) (lo hi : UInt64) : ℚ :=
  fp.round (fp.round (fp.round lo.toNat + fp.round hi.toNat) / 2)

structure NodeStats where
  nodeId : UInt64 := 0
  realStartNs : UInt64 := 0
  workDoneNs : UInt64 := 0
  realEndNs : UInt64 := 0
  okOps : UInt64 := 0
  readOps : UInt64 := 0
  writeOps : UInt64 := 0
  tscHz : UInt64 := 0
  readLatency : LatencyHistogram := {}
  writeLatency : LatencyHistogram := {}
  perf : Bytes → Option UInt64 := fun _ => none

/-- `uint64_t x = std::stoull(tok)`. -/
def readU64 (tok : Bytes) : Option UInt64 := (stoull tok).map UInt64.ofNat

/-- The fields after the tag of a `META` line. The old format has no `work_done_ns` and
ends with the third number. -/
def parseMeta (out : NodeStats) (ss : TextStream) : Option NodeStats := do
  let (tok, ss) := ss.getline [] comma
  let out := { out with nodeId := ← readU64 tok }
  let (tok, ss) := ss.getline tok comma
  let out := { out with realStartNs := ← readU64 tok }
  let (tok, ss) := ss.getline tok comma
  let third ← readU64 tok
  let (nextTok, ss) := ss.getline [] comma
  if ss.failbit then
    return { out with workDoneNs := 0, realEndNs := third }
  let out := { out with workDoneNs := third, realEndNs := ← readU64 nextTok }
  let (tok, ss) := ss.getline tok comma
  let out := { out with okOps := ← readU64 tok }
  let (tok, ss) := ss.getline tok comma
  let out := { out with readOps := ← readU64 tok }
  let (tok, ss) := ss.getline tok comma
  let out := { out with writeOps := ← readU64 tok }
  let (tok, _) := ss.getline tok comma
  return { out with tscHz := ← readU64 tok }

def parseBucket (out : NodeStats) (tag : Bytes) (ss : TextStream) : Option NodeStats := do
  let (tok, ss) := ss.getline [] comma
  let idx ← stoi tok
  let (tok, _) := ss.getline tok comma
  let cnt ← readU64 tok
  if tag = tagREAD then
    return { out with readLatency := out.readLatency.addBucket idx cnt }
  else
    return { out with writeLatency := out.writeLatency.addBucket idx cnt }

def parsePerf (out : NodeStats) (ss : TextStream) : Option NodeStats := do
  let (name, ss) := ss.getline [] comma
  let (val, _) := ss.getline [] comma
  if !name.isEmpty && !val.isEmpty then
    return { out with perf := Function.update out.perf name (some (← readU64 val)) }
  else
    return out

/-- One round of the loop over the lines; a line with another tag is skipped. -/
def parseCsvLine (out : NodeStats) (line : Bytes) : Option NodeStats :=
  if line.isEmpty then some out
  else
    let (tag, ss) := TextStream.getline { rest := line } [] comma
    if tag = tagMETA then parseMeta out ss
    else if tag = tagREAD ∨ tag = tagWRITE then parseBucket out tag ss
    else if tag = tagPERF then parsePerf out ss
    else some out

def parseCsvFile (contents : Bytes) (out : NodeStats) : Option NodeStats :=
  (linesOf contents).foldlM parseCsvLine out

structure ClusterStats where
  clusterStart : UInt64 := 0
  clusterEnd : UInt64 := 0
  totalOk : UInt64 := 0
  totalReads : UInt64 := 0
  totalWrites : UInt64 := 0
  tscHz : UInt64 := 0
  tscMismatch : Bool := false
  clusterRead : LatencyHistogram := {}
  clusterWrite : LatencyHistogram := {}

/-- One round of the loop over the nodes. -/
def ClusterStats.add (c : ClusterStats) (n : NodeStats) : ClusterStats where
  clusterStart :=
    if n.realStartNs ≠ 0 ∧ (c.clusterStart = 0 ∨ n.realStartNs < c.clusterStart) then n.realStartNs
    else c.clusterStart
  clusterEnd :=
    if n.realEndNs ≠ 0 ∧ n.realEndNs > c.clusterEnd then n.realEndNs else c.clusterEnd
  totalOk := c.totalOk + n.okOps
  totalReads := c.totalReads + n.readOps
  totalWrites := c.totalWrites + n.writeOps
  clusterRead := c.clusterRead.merge n.readLatency
  clusterWrite := c.clusterWrite.merge n.writeLatency
  tscHz := if n.tscHz ≠ 0 ∧ c.tscHz = 0 then n.tscHz else c.tscHz
  tscMismatch :=
    if n.tscHz ≠ 0 ∧ c.tscHz ≠ 0 ∧ c.tscHz ≠ n.tscHz then true else c.tscMismatch

/-- The nodes are read in the order of the files; a file that cannot be read ends the run. -/
def aggregate (files : List Bytes) : Option (List NodeStats × ClusterStats) := do
  let nodes ← files.mapM (parseCsvFile · {})
  return (nodes, nodes.foldl ClusterStats.add {})

end BandleCxl.Source
