import BandleCxl.Guarantees.StatsPipeline

/-!
The two layouts of a `META` line. `parse_csv_file` takes a fourth number for the mark of the
new layout, but the old one has seven, so an old line is read as a new one that is short
of its last number.
-/
namespace BandleCxl.Guarantees
open Library Source

/-- The line of `write_stats_csv` without `work_done_ns`. -/
def oldMetaLine (nodeId : UInt64) (s : ReplayStats) : Bytes :=
  commaJoin [tagMETA, decimal nodeId.toNat, decimal s.realStartNs.toNat,
    decimal s.realEndNs.toNat, decimal s.okOps.toNat, decimal s.readOps.toNat,
    decimal s.writeOps.toNat, decimal s.tscHz.toNat]

/-- Reading at the end leaves the last number in place. -/
theorem getline_spent (str : Bytes) :
    TextStream.getline { rest := [], eofbit := true } str comma =
      (str, { rest := [], eofbit := true, failbit := true }) := rfl

/-- Every number from the third on lands one field too early, the last one in two fields. -/
theorem parseCsvLine_oldMetaLine (nodeId : UInt64) (s : ReplayStats) (out : NodeStats) :
    parseCsvLine out (oldMetaLine nodeId s) = some { out with
      nodeId := nodeId
      realStartNs := s.realStartNs
      workDoneNs := s.realEndNs
      realEndNs := s.okOps
      okOps := s.readOps
      readOps := s.writeOps
      writeOps := s.tscHz
      tscHz := s.tscHz } := by
  rw [oldMetaLine, parseCsvLine_tagged (by decide), if_pos rfl]
  simp only [parseMeta, getline_number, getline_last_number, getline_spent, readU64_decimal,
    Option.bind_eq_bind, Option.bind_some, Option.pure_def, if_false, Bool.false_eq_true]

/-- A file of one line. -/
theorem parseCsvFile_single {line : Bytes} (whole : newline ∉ line) (out : NodeStats) :
    parseCsvFile (line ++ [newline]) out = parseCsvLine out line := by
  rw [parseCsvFile, linesOf_append_newline whole, List.foldlM_cons, linesOf]
  simp

theorem newline_not_mem_oldMetaLine (nodeId : UInt64) (s : ReplayStats) :
    newline ∉ oldMetaLine nodeId s := by
  apply newline_not_mem_commaJoin
  simp [decimal_plain, (by decide : newline ∉ tagMETA)]

/-- The fields of a `META` line under their names. -/
def NodeStats.withMeta (out : NodeStats) (nodeId : UInt64) (s : ReplayStats)
    (workDoneNs : UInt64) : NodeStats :=
  { out with
    nodeId := nodeId
    realStartNs := s.realStartNs
    workDoneNs := workDoneNs
    realEndNs := s.realEndNs
    okOps := s.okOps
    readOps := s.readOps
    writeOps := s.writeOps
    tscHz := s.tscHz }

/-- A new line is always read back. An old one is read back just when everything after the
start time is zero. -/
theorem meta_layouts (nodeId : UInt64) (s : ReplayStats) (out : NodeStats) :
    parseCsvFile (metaLine nodeId s ++ [newline]) out =
        some (NodeStats.withMeta out nodeId s s.workDoneNs) ∧
      (parseCsvFile (oldMetaLine nodeId s ++ [newline]) out =
          some (NodeStats.withMeta out nodeId s 0) ↔
        s.realEndNs = 0 ∧ s.okOps = 0 ∧ s.readOps = 0 ∧ s.writeOps = 0 ∧ s.tscHz = 0) := by
  rw [parseCsvFile_single (newline_not_mem_metaLine nodeId s), parseCsvLine_metaLine,
    parseCsvFile_single (newline_not_mem_oldMetaLine nodeId s), parseCsvLine_oldMetaLine]
  refine ⟨rfl, ?_⟩
  constructor
  · intro same
    obtain ⟨-, -, done, finish, ok, reads, writes, -⟩ := NodeStats.mk.inj (Option.some.inj same)
    refine ⟨done, ?_, ?_, ?_, ?_⟩
    · rw [finish, done]
    · rw [ok, finish, done]
    · rw [reads, ok, finish, done]
    · rw [writes, reads, ok, finish, done]
  · rintro ⟨done, finish, ok, reads, writes⟩
    rw [NodeStats.withMeta, done, finish, ok, reads, writes]

/-- The line `META,1,5,9,4,3,1,7`: the end of the run becomes the end of the work. -/
theorem old_meta_misread :
    let s : ReplayStats :=
      { realStartNs := 5, realEndNs := 9, okOps := 4, readOps := 3, writeOps := 1, tscHz := 7 }
    parseCsvFile (oldMetaLine 1 s ++ [newline]) {} ≠ some (NodeStats.withMeta {} 1 s 0) := by
  intro s same
  rw [parseCsvFile_single (newline_not_mem_oldMetaLine 1 s), parseCsvLine_oldMetaLine] at same
  have done := congrArg NodeStats.workDoneNs (Option.some.inj same)
  exact absurd done (by decide)

end BandleCxl.Guarantees
