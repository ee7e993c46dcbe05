import BandleCxl.Library.Decimal
import BandleCxl.Source.Bandle

/-!
`LatencyHistogram` (`include/latency_histogram.h`), `AtomicHistogram::snapshot` and
`Bandle::stats`, and the file that `write_stats_csv` (`src/main.cpp`) makes of them.
The product that makes a rank of a quantile is floating point and an argument here; files
that cannot be opened are left out.
-/
namespace BandleCxl.Source
open Library LatencyHistogram

structure LatencyHistogram where
  counts : Fin BUCKETS → UInt64 := fun _ => 0
  total : UInt64 := 0

namespace LatencyHistogram

/-- `index_for`, a second function beside `histogram_index_for`, here in 64-bit arithmetic
and with the cast of the quotient to `int`. -/
def indexFor (value : UInt64) : Int :=
  if value = 0 then 0
  else
    let exp := if value.toNat.log2 > MAX_EXP then MAX_EXP else value.toNat.log2
    let base : UInt64 := if exp = 0 then 1 else 1 <<< UInt64.ofNat exp
    let next : UInt64 := if exp = MAX_EXP then 18446744073709551615 else base <<< 1
    let width : UInt64 := if next > base then (next - base) / UInt64.ofNat SUB_BUCKETS else 1
    let width := if width = 0 then 1 else width
    let off : UInt64 := if value ≤ base then 0 else value - base
    let sub := int32 (off / width).toNat
    let sub : Int := if sub ≥ SUB_BUCKETS then SUB_BUCKETS - 1 else sub
    exp * SUB_BUCKETS + sub

theorem indexFor_lt (value : UInt64) : indexFor value < BUCKETS := by
  unfold indexFor
  split
  · decide
  · dsimp only
    generalize value.toNat.log2 = exp
    generalize int32 _ = sub
    have buckets : BUCKETS = 1024 := rfl
    have exponents : MAX_EXP = 63 := rfl
    have parts : SUB_BUCKETS = 16 := rfl
    rw [buckets, exponents, parts]
    split <;> split <;> omega

def bucketOf (value : UInt64) : Fin BUCKETS :=
  ⟨(indexFor value).toNat, by
    have := indexFor_lt value
    have pos : 0 < BUCKETS := by decide
    omega⟩

def record (h : LatencyHistogram) (value : UInt64) : LatencyHistogram where
  counts := Function.update h.counts (bucketOf value) (h.counts (bucketOf value) + 1)
  total := h.total + 1

def addBucket (h : LatencyHistogram) (idx : Int) (cnt : UInt64) : LatencyHistogram :=
  if outside : cnt = 0 ∨ idx < 0 ∨ idx ≥ BUCKETS then h
  else
    let i : Fin BUCKETS := ⟨idx.toNat, by omega⟩
    { counts := Function.update h.counts i (h.counts i + cnt), total := h.total + cnt }

def merge (h other : LatencyHistogram) : LatencyHistogram where
  total := h.total + other.total
  counts := fun i => h.counts i + other.counts i

def bucketLowerValue (idx : Int) : UInt64 :=
  if idx ≤ 0 then 0
  else
    let exp := idx.tdiv SUB_BUCKETS
    let sub := idx.tmod SUB_BUCKETS
    let exp : Int := if exp < 0 then 0 else if exp > MAX_EXP then MAX_EXP else exp
    let base : UInt64 := if exp = 0 then 1 else 1 <<< UInt64.ofNat exp.toNat
    let next : UInt64 := if exp = MAX_EXP then 18446744073709551615 else base <<< 1
    let width : UInt64 := if next > base then (next - base) / UInt64.ofNat SUB_BUCKETS else 1
    let width := if width = 0 then 1 else width
    base + UInt64.ofInt sub * width

/-- The loop of `quantile_value`, with the fall through after the last bucket. -/
def quantileScan (h : LatencyHistogram) (target : UInt64) : List (Fin BUCKETS) → UInt64 → UInt64
  | [], _ => bucketLowerValue (BUCKETS - 1)
  | i :: rest, cum =>
    let cum := cum + h.counts i
    if cum ≥ target then bucketLowerValue (i : Nat) else quantileScan h target rest cum

/-- `quantile_value`, where `scaled` is `static_cast<uint64_t>(q * total_)`. -/
def quantileValue (h : LatencyHistogram) (scaled : UInt64) : UInt64 :=
  if h.total = 0 then 0
  else
    let target := if scaled = 0 then 1 else scaled
    h.quantileScan target (List.finRange BUCKETS) 0

end LatencyHistogram

/-- The atomics hold their counts modulo `2 ^ 64`. -/
def AtomicHistogram.snapshot (h : AtomicHistogram) : LatencyHistogram :=
  (List.finRange BUCKETS).foldl (fun s i =>
    let c := UInt64.ofNat (h.counts i)
    if c ≠ 0 then s.addBucket i c else s) {}

structure ReplayStats where
  totalOps : UInt64 := 0
  readOps : UInt64 := 0
  writeOps : UInt64 := 0
  okOps : UInt64 := 0
  errorOps : UInt64 := 0
  realStartNs : UInt64 := 0
  workDoneNs : UInt64 := 0
  realEndNs : UInt64 := 0
  tscHz : UInt64 := 0
  readLatency : LatencyHistogram := {}
  writeLatency : LatencyHistogram := {}

/-- `Bandle::stats`. The times are set later. -/
def Accounting.stats (a : Accounting) : ReplayStats where
  totalOps := UInt64.ofNat a.totalOps
  readOps := UInt64.ofNat a.readOps
  writeOps := UInt64.ofNat a.writeOps
  okOps := UInt64.ofNat a.okOps
  errorOps := UInt64.ofNat a.errorOps
  readLatency := a.readLatency.snapshot
  writeLatency := a.writeLatency.snapshot

def comma : UInt8 := 44
def newline : UInt8 := 10

def tagMETA : Bytes := [77, 69, 84, 65]
def tagREAD : Bytes := [82, 69, 65, 68]
def tagWRITE : Bytes := [87, 82, 73, 84, 69]
def tagPERF : Bytes := [80, 69, 82, 70]

/-- The pieces of a line with a comma between any two. -/
def commaJoin : List Bytes → Bytes
  | [] => []
  | [last] => last
  | piece :: pieces => piece ++ comma :: commaJoin pieces

/-- The lines of one histogram: empty buckets are not written. -/
def writeBuckets (tag : Bytes) (counts : Fin BUCKETS → UInt64) : Bytes :=
  (List.finRange BUCKETS).flatMap fun i =>
    if counts i ≠ 0 then commaJoin [tag, decimal i, decimal (counts i).toNat] ++ [newline] else []

def writeStatsCsv (nodeId : UInt64) (s : ReplayStats) : Bytes :=
  commaJoin [tagMETA, decimal nodeId.toNat, decimal s.realStartNs.toNat,
    decimal s.workDoneNs.toNat, decimal s.realEndNs.toNat, decimal s.okOps.toNat,
    decimal s.readOps.toNat, decimal s.writeOps.toNat, decimal s.tscHz.toNat] ++ [newline] ++
  writeBuckets tagREAD s.readLatency.counts ++ writeBuckets tagWRITE s.writeLatency.counts

end BandleCxl.Source
