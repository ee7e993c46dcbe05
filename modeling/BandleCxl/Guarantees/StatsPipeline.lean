import BandleCxl.Invariant.Histogram
import BandleCxl.Source.Aggregate

/-!
The way of the statistics from the nodes to the summary. What a node recorded and
counted is in its file, and the merged histograms are those of a single histogram that
recorded every sample of every node, whatever the order of the files. Counts wrap alike
everywhere, so no bound on the totals is needed.
-/
namespace BandleCxl.Guarantees
open Library Source Invariant LatencyHistogram

/-! ### Reading lines back -/

theorem decimal_plain (n : Nat) : comma ∉ decimal n ∧ newline ∉ decimal n :=
  ⟨not_mem_decimal (by decide) n, not_mem_decimal (by decide) n⟩

theorem readU64_decimal (x : UInt64) : readU64 (decimal x.toNat) = some x := by
  rw [readU64, stoull_decimal x.toNat_lt, Option.map_some, UInt64.ofNat_toNat]

theorem linesOf_append_newline {line : Bytes} (whole : newline ∉ line) (rest : Bytes) :
    linesOf (line ++ newline :: rest) = line :: linesOf rest := by
  induction line with
  | nil => rfl
  | cons b line ih =>
    obtain ⟨other, later⟩ := not_or.mp (List.mem_cons.not.mp whole)
    have inside : b ≠ 10 := fun is => other is.symm
    rw [List.cons_append, linesOf, if_neg inside, ih later]

theorem newline_not_mem_commaJoin {pieces : List Bytes} (plain : ∀ p ∈ pieces, newline ∉ p) :
    newline ∉ commaJoin pieces := by
  induction pieces with
  | nil => simp [commaJoin]
  | cons piece rest ih =>
    cases rest with
    | nil => exact plain piece (by simp)
    | cons second rest =>
      intro member
      rcases List.mem_append.mp member with inside | later
      · exact plain piece (by simp) inside
      · rcases List.mem_cons.mp later with is | later
        · exact absurd is (by decide)
        · exact ih (fun p within => plain p (List.mem_cons_of_mem _ within)) later

theorem getline_piece {piece : Bytes} (plain : comma ∉ piece) (second : Bytes)
    (rest : List Bytes) (str : Bytes) :
    TextStream.getline { rest := commaJoin (piece :: second :: rest) } str comma =
      (piece, { rest := commaJoin (second :: rest) }) :=
  TextStream.getline_delim plain _ str

theorem getline_number (n : Nat) (second : Bytes) (rest : List Bytes) (str : Bytes) :
    TextStream.getline { rest := commaJoin (decimal n :: second :: rest) } str comma =
      (decimal n, { rest := commaJoin (second :: rest) }) :=
  getline_piece (decimal_plain n).1 second rest str

theorem getline_last_number (n : Nat) (str : Bytes) :
    TextStream.getline { rest := commaJoin [decimal n] } str comma =
      (decimal n, { rest := [], eofbit := true }) :=
  TextStream.getline_last (decimal_plain n).1 (decimal_ne_nil n) str

theorem parseCsvLine_tagged {tag : Bytes} (plain : comma ∉ tag)
    (second : Bytes) (rest : List Bytes) (out : NodeStats) :
    parseCsvLine out (commaJoin (tag :: second :: rest)) =
      if tag = tagMETA then parseMeta out { rest := commaJoin (second :: rest) }
      else if tag = tagREAD ∨ tag = tagWRITE then
        parseBucket out tag { rest := commaJoin (second :: rest) }
      else if tag = tagPERF then parsePerf out { rest := commaJoin (second :: rest) }
      else some out := by
  have text : (commaJoin (tag :: second :: rest)).isEmpty = false := by
    simp [commaJoin]
  rw [parseCsvLine, text, if_neg (by decide), getline_piece plain]

/-! ### The `META` line -/

def metaLine (nodeId : UInt64) (s : ReplayStats) : Bytes :=
  commaJoin [tagMETA, decimal nodeId.toNat, decimal s.realStartNs.toNat,
    decimal s.workDoneNs.toNat, decimal s.realEndNs.toNat, decimal s.okOps.toNat,
    decimal s.readOps.toNat, decimal s.writeOps.toNat, decimal s.tscHz.toNat]

theorem newline_not_mem_metaLine (nodeId : UInt64) (s : ReplayStats) :
    newline ∉ metaLine nodeId s := by
  apply newline_not_mem_commaJoin
  simp [decimal_plain, (by decide : newline ∉ tagMETA)]

/-- All eight numbers are read back into their fields. -/
theorem parseCsvLine_metaLine (nodeId : UInt64) (s : ReplayStats) (out : NodeStats) :
    parseCsvLine out (metaLine nodeId s) = some { out with
      nodeId := nodeId
      realStartNs := s.realStartNs
      workDoneNs := s.workDoneNs
      realEndNs := s.realEndNs
      okOps := s.okOps
      readOps := s.readOps
      writeOps := s.writeOps
      tscHz := s.tscHz } := by
  rw [metaLine, parseCsvLine_tagged (by decide), if_pos rfl]
  simp only [parseMeta, getline_number, getline_last_number, readU64_decimal, Option.bind_eq_bind,
    Option.bind_some, Option.pure_def, if_false, Bool.false_eq_true]

/-! ### Bucket lines -/

/-- The two kinds of latencies. -/
inductive Side where
  | read
  | write

namespace Side

def tag : Side → Bytes
  | read => tagREAD
  | write => tagWRITE

def get : Side → NodeStats → LatencyHistogram
  | read, n => n.readLatency
  | write, n => n.writeLatency

def set : Side → NodeStats → LatencyHistogram → NodeStats
  | read, n, h => { n with readLatency := h }
  | write, n, h => { n with writeLatency := h }

@[simp] theorem get_set (side : Side) (n : NodeStats) (h : LatencyHistogram) :
    side.get (side.set n h) = h := by
  cases side <;> rfl

@[simp] theorem set_set (side : Side) (n : NodeStats) (h h' : LatencyHistogram) :
    side.set (side.set n h) h' = side.set n h' := by
  cases side <;> rfl

@[simp] theorem set_get (side : Side) (n : NodeStats) : side.set n (side.get n) = n := by
  cases side <;> rfl

theorem tag_plain (side : Side) : comma ∉ side.tag ∧ newline ∉ side.tag := by
  cases side <;> decide

end Side

def bucketLine (side : Side) (i : Fin BUCKETS) (cnt : UInt64) : Bytes :=
  commaJoin [side.tag, decimal i, decimal cnt.toNat]

theorem parseCsvLine_bucketLine (side : Side) (i : Fin BUCKETS) (cnt : UInt64) (out : NodeStats) :
    parseCsvLine out (bucketLine side i cnt) =
      some (side.set out ((side.get out).addBucket (i : Nat) cnt)) := by
  have small : (i : Nat) < 2 ^ 31 := Nat.lt_trans i.isLt (by decide)
  rw [bucketLine, parseCsvLine_tagged side.tag_plain.1, if_neg (by cases side <;> decide),
    if_pos (by cases side <;> decide)]
  simp only [parseBucket, getline_number, getline_last_number, readU64_decimal,
    stoi_decimal small, Option.bind_eq_bind, Option.bind_some, Option.pure_def]
  cases side with
  | read => rfl
  | write => rw [if_neg (by decide)]; rfl

/-- The lines of the buckets that are not empty. -/
def bucketLines (side : Side) (counts : Fin BUCKETS → UInt64) (indices : List (Fin BUCKETS)) :
    List Bytes :=
  (indices.filter fun i => counts i ≠ 0).map fun i => bucketLine side i (counts i)

theorem linesOf_writeBuckets (side : Side) (counts : Fin BUCKETS → UInt64) (rest : Bytes) :
    linesOf (writeBuckets side.tag counts ++ rest) =
      bucketLines side counts (List.finRange BUCKETS) ++ linesOf rest := by
  unfold writeBuckets bucketLines
  induction List.finRange BUCKETS with
  | nil => rfl
  | cons i indices ih =>
    rw [List.flatMap_cons, List.append_assoc]
    by_cases empty : counts i = 0
    · rw [if_neg (by simpa using empty), List.filter_cons_of_neg (by simpa using empty)]
      exact ih
    · have plain : newline ∉ bucketLine side i (counts i) := by
        apply newline_not_mem_commaJoin
        simp [side.tag_plain, decimal_plain]
      rw [if_pos empty, List.filter_cons_of_pos (by simpa using empty), List.map_cons,
        List.cons_append, ← ih, List.append_assoc]
      exact linesOf_append_newline plain _

/-- Reading the lines of a histogram fills the buckets as a snapshot does. -/
theorem parse_bucketLines (side : Side) (counts : Fin BUCKETS → UInt64)
    (indices : List (Fin BUCKETS)) (out : NodeStats) :
    (bucketLines side counts indices).foldlM parseCsvLine out =
      some (side.set out (fillBuckets counts indices (side.get out))) := by
  induction indices generalizing out with
  | nil => simp [bucketLines, fillBuckets]
  | cons i indices ih =>
    unfold bucketLines fillBuckets at ih ⊢
    rw [List.foldl_cons]
    by_cases empty : counts i = 0
    · rw [if_neg (by simpa using empty), List.filter_cons_of_neg (by simpa using empty)]
      exact ih out
    · rw [if_pos empty, List.filter_cons_of_pos (by simpa using empty), List.map_cons,
        List.foldlM_cons, parseCsvLine_bucketLine]
      refine (ih _).trans ?_
      rw [Side.get_set, Side.set_set]

/-! ### Whole files -/

theorem linesOf_writeStatsCsv (nodeId : UInt64) (s : ReplayStats) :
    linesOf (writeStatsCsv nodeId s) = metaLine nodeId s ::
      (bucketLines .read s.readLatency.counts (List.finRange BUCKETS) ++
        bucketLines .write s.writeLatency.counts (List.finRange BUCKETS)) := by
  have plain := newline_not_mem_metaLine nodeId s
  have reads : ∀ rest, linesOf (writeBuckets tagREAD s.readLatency.counts ++ rest) =
      bucketLines .read s.readLatency.counts (List.finRange BUCKETS) ++ linesOf rest :=
    linesOf_writeBuckets .read s.readLatency.counts
  have writes : ∀ rest, linesOf (writeBuckets tagWRITE s.writeLatency.counts ++ rest) =
      bucketLines .write s.writeLatency.counts (List.finRange BUCKETS) ++ linesOf rest :=
    linesOf_writeBuckets .write s.writeLatency.counts
  calc linesOf (writeStatsCsv nodeId s)
      = linesOf (metaLine nodeId s ++ newline :: (writeBuckets tagREAD s.readLatency.counts ++
          (writeBuckets tagWRITE s.writeLatency.counts ++ []))) := by
        simp only [writeStatsCsv, metaLine, List.append_assoc, List.cons_append, List.nil_append,
          List.append_nil]
    _ = _ := by
        rw [linesOf_append_newline plain, reads, writes, linesOf, List.append_nil]

theorem parseCsvFile_writeStatsCsv (nodeId : UInt64) (s : ReplayStats) :
    parseCsvFile (writeStatsCsv nodeId s) {} = some {
      nodeId := nodeId
      realStartNs := s.realStartNs
      workDoneNs := s.workDoneNs
      realEndNs := s.realEndNs
      okOps := s.okOps
      readOps := s.readOps
      writeOps := s.writeOps
      tscHz := s.tscHz
      readLatency := fillBuckets s.readLatency.counts (List.finRange BUCKETS) {}
      writeLatency := fillBuckets s.writeLatency.counts (List.finRange BUCKETS) {} } := by
  rw [parseCsvFile, linesOf_writeStatsCsv, List.foldlM_cons, parseCsvLine_metaLine,
    Option.bind_eq_bind, Option.bind_some, List.foldlM_append, parse_bucketLines,
    Option.bind_eq_bind, Option.bind_some, parse_bucketLines]
  simp only [Side.set, Side.get]

/-- What one node counted, recorded and measured. -/
structure NodeRun where
  nodeId : UInt64
  realStartNs : UInt64
  workDoneNs : UInt64
  realEndNs : UInt64
  tscHz : UInt64
  acct : Accounting
  reads : List UInt64
  writes : List UInt64

namespace NodeRun

/-- `Bandle::stats` after the samples, and the times that `main` sets. -/
def stats (r : NodeRun) : ReplayStats :=
  { Accounting.stats { r.acct with
      readLatency := recordedAtomic r.reads, writeLatency := recordedAtomic r.writes } with
    realStartNs := r.realStartNs
    workDoneNs := r.workDoneNs
    realEndNs := r.realEndNs
    tscHz := r.tscHz }

theorem stats_readLatency (r : NodeRun) :
    r.stats.readLatency = (recordedAtomic r.reads).snapshot := by
  rw [stats, Accounting.stats]

theorem stats_writeLatency (r : NodeRun) :
    r.stats.writeLatency = (recordedAtomic r.writes).snapshot := by
  rw [stats, Accounting.stats]

def csv (r : NodeRun) : Bytes := writeStatsCsv r.nodeId r.stats

end NodeRun

/-- The fields of the file are those that were written. -/
structure Recovered (r : NodeRun) (n : NodeStats) : Prop where
  nodeId : n.nodeId = r.nodeId
  realStartNs : n.realStartNs = r.stats.realStartNs
  workDoneNs : n.workDoneNs = r.stats.workDoneNs
  realEndNs : n.realEndNs = r.stats.realEndNs
  okOps : n.okOps = r.stats.okOps
  readOps : n.readOps = r.stats.readOps
  writeOps : n.writeOps = r.stats.writeOps
  tscHz : n.tscHz = r.stats.tscHz
  readLatency : n.readLatency = recorded r.reads
  writeLatency : n.writeLatency = recorded r.writes

theorem parse_csv (r : NodeRun) : ∃ n, parseCsvFile r.csv {} = some n ∧ Recovered r n := by
  have read := parseCsvFile_writeStatsCsv r.nodeId r.stats
  rw [r.stats_readLatency, r.stats_writeLatency, fillBuckets_snapshot, fillBuckets_snapshot,
    snapshot_recordedAtomic, snapshot_recordedAtomic] at read
  exact ⟨_, read, rfl, rfl, rfl, rfl, rfl, rfl, rfl, rfl, rfl, rfl⟩

theorem parse_all (order : List NodeRun) :
    ∃ nodes, (order.map NodeRun.csv).mapM (parseCsvFile · {}) = some nodes ∧
      List.Forall₂ Recovered order nodes := by
  induction order with
  | nil => exact ⟨[], rfl, .nil⟩
  | cons r order ih =>
    obtain ⟨n, read, same⟩ := parse_csv r
    obtain ⟨nodes, rest, all⟩ := ih
    refine ⟨n :: nodes, ?_, .cons same all⟩
    rw [List.map_cons, List.mapM_cons, read, rest]
    rfl

/-! ### Merging -/

section
variable {node : NodeStats → LatencyHistogram} {samples : NodeRun → List UInt64}
  (recovered : ∀ {r n}, Recovered r n → node n = recorded (samples r))
include recovered

theorem node_weights {order : List NodeRun} {nodes : List NodeStats}
    (all : List.Forall₂ Recovered order nodes) :
    nodes.map (fun n => weights (node n)) =
      order.map fun r => ((samples r).map sampleUnit).sum := by
  induction all with
  | nil => rfl
  | cons same _ ih => rw [List.map_cons, List.map_cons, ih, recovered same, weights_recorded]

/-- Both merged histograms are sums over the nodes, so the order does not count. -/
theorem merged_eq_recorded {merged : ClusterStats → LatencyHistogram}
    (merges : ∀ c n, merged (c.add n) = (merged c).merge (node n)) (empty : merged {} = {})
    {order runs : List NodeRun} {nodes : List NodeStats}
    (all : List.Forall₂ Recovered order nodes) (perm : order.Perm runs) :
    merged (nodes.foldl ClusterStats.add {}) = recorded (runs.flatMap samples) := by
  have adds : ∀ c n, weights (merged (c.add n)) = weights (merged c) + weights (node n) := by
    intro c n
    rw [merges, weights_merge]
  apply weights_injective
  calc weights (merged (nodes.foldl ClusterStats.add {}))
      = (order.map fun r => ((samples r).map sampleUnit).sum).sum := by
        rw [view_foldl (fun c => weights (merged c)) adds, empty, weights_empty, zero_add,
          node_weights recovered all]
    _ = (runs.map fun r => ((samples r).map sampleUnit).sum).sum := (perm.map _).sum_eq
    _ = weights (recorded (runs.flatMap samples)) := by
        rw [weights_recorded, List.map_flatMap, List.flatMap_def, List.sum_flatten, List.map_map]
        rfl

end

/-- For every number of nodes, whatever they counted and recorded, and every order of the
files: all files are read, each node's numbers are recovered, and the merged histograms
are those of one histogram that recorded all samples. -/
theorem statistics_lossless (runs order : List NodeRun) (perm : order.Perm runs) :
    ∃ nodes cluster, aggregate (order.map NodeRun.csv) = some (nodes, cluster) ∧
      List.Forall₂ Recovered order nodes ∧
      cluster.clusterRead = recorded (runs.flatMap NodeRun.reads) ∧
      cluster.clusterWrite = recorded (runs.flatMap NodeRun.writes) := by
  obtain ⟨nodes, read, all⟩ := parse_all order
  refine ⟨nodes, nodes.foldl ClusterStats.add {}, ?_, all, ?_, ?_⟩
  · rw [aggregate, read]
    rfl
  · exact merged_eq_recorded Recovered.readLatency (fun _ _ => rfl) rfl all perm
  · exact merged_eq_recorded Recovered.writeLatency (fun _ _ => rfl) rfl all perm

/-- A node with two reads and the largest start time. -/
def readerRun : NodeRun where
  nodeId := 1
  realStartNs := 18446744073709551615
  workDoneNs := 7
  realEndNs := 9
  tscHz := 2400000000
  acct := { okOps := 2, readOps := 2 }
  reads := [5, 1099511627776]
  writes := []

def writerRun : NodeRun where
  nodeId := 2
  realStartNs := 0
  workDoneNs := 0
  realEndNs := 3
  tscHz := 2400000000
  acct := { okOps := 2, readOps := 1, writeOps := 1 }
  reads := [5]
  writes := [0]

theorem statistics_lossless_swapped :
    ∃ nodes cluster, aggregate [writerRun.csv, readerRun.csv] = some (nodes, cluster) ∧
      List.Forall₂ Recovered [writerRun, readerRun] nodes ∧
      cluster.clusterRead = recorded [5, 1099511627776, 5] ∧
      cluster.clusterWrite = recorded [0] :=
  statistics_lossless [readerRun, writerRun] [writerRun, readerRun] (List.Perm.swap _ _ _)

end BandleCxl.Guarantees
