import BandleCxl.Guarantees.Preload
import BandleCxl.Guarantees.TraceFiles

/-!
From the threads of the YCSB binding to the preload. The binding turns the reads among the first
`preloadCount` calls into puts "so replay preloading always finds enough writes": the files that
the threads leave hold that many, and a file that holds all calls is enough for the preload.
-/
namespace BandleCxl.Guarantees
open Library Source Invariant

variable {b : TraceSetup} {charset : Charset}

/-- What the lines need so that they are read back: no separator in key or value. -/
structure Readable (b : TraceSetup) (op : TraceOp) : Prop where
  sized : JavaSized (b.lineOf op)
  key : ∀ c ∈ b.normalizeKey op.call.key, c ≠ 58 ∧ c ≠ 10 ∧ c ≠ 13
  value : ∀ value ∈ b.fixedValue, ∀ c ∈ value, c ≠ 10 ∧ c ≠ 13

/-- The operation byte says whether the call counted as a write. -/
theorem isWriteOp_emitted (b : TraceSetup) (op : TraceOp) :
    isWriteOp (emittedOp b.toBinding op.opIndex.toNat op.call) = b.isWrite op := by
  unfold emittedOp TraceSetup.isWrite
  cases op.call with
  | insert key => rfl
  | update key => rfl
  | delete key => rfl
  | read key =>
    dsimp only
    by_cases forced : b.preloadCount > 0 ∧ op.opIndex < b.preloadCount
    · rw [if_pos (by omega), decide_eq_true forced]
      rfl
    · rw [if_neg (by omega), decide_eq_false forced]
      rfl

theorem newline_not_mem_line {op : TraceOp} (readable : Readable b op) (ts : Nat) :
    10 ∉ appendLine charset ts (b.lineOf op) := by
  intro member
  have inside := charset.separator _ 10 member (by decide)
  rcases List.mem_append.mp inside with digit | later
  · obtain ⟨d, inDecimal, same⟩ := List.mem_map.mp digit
    have range := decimal_range ts d inDecimal
    have value := congrArg UInt16.toNat same
    simp at value
    omega
  · rcases List.mem_cons.mp later with comma | inLine
    · exact absurd comma (by decide)
    · rw [TraceSetup.lineOf, line_eq] at inLine
      have op : (emittedOp b.toBinding op.opIndex.toNat op.call).toUInt16 ≠ 10 := by
        rcases emittedOp_cases b.toBinding op.opIndex.toNat op.call with is | is | is <;> rw [is] <;>
          decide
      rcases List.mem_cons.mp inLine with first | inLine
      · exact op first.symm
      · rcases List.mem_cons.mp inLine with blank | inRest
        · exact absurd blank (by decide)
        · exact (restChars_clean readable.key readable.value _ inRest).1 rfl

/-- A line of the file is accepted, with the operation that was called for. -/
theorem parseLineView_line (charset : Charset) {op : TraceOp} (readable : Readable b op)
    {ts : Nat} (small : ts < 2 ^ 63) {lineEnd : Bytes} (ends : ∀ x ∈ lineEnd, x = 10 ∨ x = 13) :
    ∃ v, parseLineView (appendLine charset ts (b.lineOf op) ++ lineEnd) = some v ∧
      isWriteOp v.op = b.isWrite op := by
  have shape := shaped_line charset ts b.toBinding op.opIndex.toNat op.call ends
    (restChars_clean readable.key readable.value)
  have key : b.normalizeKey op.call.key ≠ [] := by
    have length := normalizeKey_length b.toBinding op.call.key
    have pos := b.key_pos
    rintro none
    rw [none, List.length_nil] at length
    omega
  have sized := readable.sized
  rw [TraceSetup.lineOf, line_eq] at sized
  have rest := javaSized_infix sized (List.suffix_append [_, _] _).isInfix
  obtain ⟨v, view, recovers⟩ := viewOf_recovers charset ts
    (emittedOp b.toBinding op.opIndex.toNat op.call) key
    (fun colon => (readable.key 58 colon).1 rfl) rest
  refine ⟨v, ?_, ?_⟩
  · rw [TraceSetup.lineOf, parseLineView_shaped shape, parseU64_decimal (by omega), Option.bind_some]
    exact view
  · rw [recovers.operation]
    exact isWriteOp_emitted b op

/-- The writes that a preload of these bytes would find. -/
def writesIn (contents : Bytes) : List ParsedLineView :=
  (acceptedLines contents).filter fun v => isWriteOp v.op

/-- The separator is a line end, and perhaps a carriage return that stays with the line. -/
theorem encode_separator (charset : Charset) (b : TraceSetup) :
    ∃ lineEnd, charset.encode b.lineSeparator = lineEnd ++ [10] ∧ (lineEnd = [] ∨ lineEnd = [13]) := by
  rcases b.separator_cases with unix | dos
  · refine ⟨[], ?_, Or.inl rfl⟩
    rw [unix, encode_cons charset 10 [] (by decide), charset.encode_nil]
    rfl
  · refine ⟨[13], ?_, Or.inr rfl⟩
    rw [dos, encode_cons charset 13 [10] (by decide), encode_cons charset 10 [] (by decide),
      charset.encode_nil]
    rfl

/-- A file of whole lines has as many writes as there are calls that count as one. -/
theorem length_writesIn (charset : Charset) {records : List TraceRecord}
    (readable : ∀ r ∈ records, Readable b r.op) (small : ∀ r ∈ records, r.ts < 2 ^ 63) :
    (writesIn (records.flatMap fun r =>
      appendLine charset r.ts (b.lineOf r.op) ++ charset.encode b.lineSeparator)).length =
      records.countP fun r => b.isWrite r.op := by
  obtain ⟨lineEnd, separator, ends⟩ := encode_separator charset b
  induction records with
  | nil => rfl
  | cons r rest ih =>
    have later := ih (fun r' member => readable r' (List.mem_cons_of_mem r member))
      fun r' member => small r' (List.mem_cons_of_mem r member)
    have line := readable r List.mem_cons_self
    have ending : ∀ x ∈ lineEnd, x = 10 ∨ x = 13 := by
      rcases ends with rfl | rfl <;> simp
    obtain ⟨v, accepted, write⟩ := parseLineView_line charset line
      (small r List.mem_cons_self) ending
    have whole : 10 ∉ appendLine charset r.ts (b.lineOf r.op) ++ lineEnd := by
      intro member
      rcases List.mem_append.mp member with inLine | inEnd
      · exact newline_not_mem_line line r.ts inLine
      · rcases ends with rfl | rfl
        · cases inEnd
        · exact absurd inEnd (by decide)
    rw [List.flatMap_cons, separator, List.append_assoc, List.append_assoc,
      List.singleton_append, ← List.append_assoc]
    unfold writesIn acceptedLines at later ⊢
    rw [separator] at later
    rw [linesOf_line whole, List.filterMap_cons_some accepted, List.filter_cons,
      List.countP_cons, write, ← later]
    split <;> rfl

/-! ### Enough writes -/

variable {T : Type*} [DecidableEq T] {s : TraceState T}

omit [DecidableEq T] in
/-- Among the first calls, as many as are preloaded, each has returned and counts as a write. -/
theorem le_countP_succeeded [Fintype T] (tallies : Tallies b s) (quiet : ∀ t, (s.pc t).op = none)
    (first : s.firstOp = 0) (short : s.opCount < 2 ^ 63) {count : Nat}
    (forced : (count : Int) ≤ b.preloadCount) (made : count ≤ s.opCount) :
    count ≤ (succeeded s.returned).countP fun op => b.isWrite op := by
  have covered : ∀ k < count, ∃ op ∈ succeeded s.returned, b.isWrite op = true ∧ op.opIndex = k := by
    intro k below
    rcases tallies.covered k (by omega) (by omega) with ⟨r, member, index⟩ | ⟨t, op, under, -⟩
    · rw [atomicLong_small (by omega)] at index
      refine ⟨r.1, ?_, ?_, index⟩
      · refine List.mem_map.mpr ⟨r, List.mem_filter.mpr ⟨member, ?_⟩, rfl⟩
        exact (tallies.valid short).ok r member
      · unfold TraceSetup.isWrite
        split
        · rw [index]
          simp only [decide_eq_true_eq]
          omega
        · rfl
    · rw [quiet t] at under
      cases under
  have subset : (List.range count).map Int.ofNat ⊆
      ((succeeded s.returned).filter fun op => b.isWrite op).map TraceOp.opIndex := by
    intro i member
    obtain ⟨k, below, rfl⟩ := List.mem_map.mp member
    obtain ⟨op, returned, write, index⟩ := covered k (List.mem_range.mp below)
    exact List.mem_map.mpr ⟨op, List.mem_filter.mpr ⟨returned, write⟩, index⟩
  have nodup : ((List.range count).map Int.ofNat).Nodup :=
    List.nodup_range.map fun _ _ same => Int.ofNat.inj same
  have length := (List.subperm_of_subset nodup subset).length_le
  rwa [List.length_map, List.length_range, List.length_map, ← List.countP_eq_length_filter] at length

/-- After any interleaving of any number of threads that made at least `count` calls, with
`count` at most `preloadCount`, on files that were empty and opened before the first call
(`init` does not set `OP_COUNT` back, and the forced puts are counted by it): the files together
hold at least `count` writes, and with one node a preload of `count` writes loads all of them. -/
theorem trace_preloads [Fintype T] (b : TraceSetup) (charset : Charset) (hash : Bytes → Nat)
    (reached : (traceThreads T b).Reachable s) (quiet : ∀ t, (s.pc t).op = none)
    (first : s.firstOp = 0) (empty : ∀ node < b.nodes, s.opened node = []) (short : s.opCount < 2 ^ 63)
    (readable : ∀ r ∈ s.returned, Readable b r.1) (count : Nat)
    (forced : (count : Int) ≤ b.preloadCount) (made : count ≤ s.opCount) :
    count ≤ ((List.range b.nodes).map fun node =>
      (writesIn (charset.encode (s.files node))).length).sum ∧
    (b.nodes = 1 → (preload hash count (some (charset.encode (s.files 0))) .empty).2 = count) := by
  obtain ⟨locked, records, filed⟩ := traceInv_of_reachable reached
  have enough := le_countP_succeeded (tallies_of_reachable reached) quiet first short forced made
  have unheld : ∀ node, s.writerLocks node = none := by
    intro node
    cases holder : s.writerLocks node with
    | none => rfl
    | some t =>
      have holds := (locked.writers node t).mp holder
      have idle := quiet t
      rw [Function.comp_apply] at holds
      cases here : s.pc t <;> simp_all [TracePc.node, TracePc.op]
  have files : ∀ node < b.nodes, (writesIn (charset.encode (s.files node))).length =
      (records node).countP fun r => b.isWrite r.op := by
    intro node inRange
    rw [filed.free node (unheld node), whole, encode_lines, empty node inRange, charset.encode_nil,
      List.nil_append]
    refine length_writesIn charset (fun r member => ?_) fun r member =>
      Nat.lt_of_le_of_lt (filed.emitted node r member) filed.small
    have line : r.op ∈ written b records := List.mem_flatMap.mpr
      ⟨node, List.mem_range.mpr inRange, List.mem_map_of_mem member⟩
    obtain ⟨answer, returned, same⟩ := List.mem_map.mp (filed.returned.mem_iff.mp line)
    rw [← same]
    exact readable answer (List.mem_filter.mp returned).1
  have total : ((List.range b.nodes).map fun node =>
      (writesIn (charset.encode (s.files node))).length).sum =
        (succeeded s.returned).countP fun op => b.isWrite op := by
    rw [← filed.returned.countP_eq, written, List.countP_flatMap]
    refine congrArg List.sum (List.map_congr_left fun node member => ?_)
    rw [files node (List.mem_range.mp member), Function.comp_apply, List.countP_map]
    rfl
  rw [← total] at enough
  refine ⟨enough, fun single => ?_⟩
  rw [single, List.range_one, List.map_singleton, List.sum_singleton] at enough
  rw [preload_eq]
  exact List.length_take_of_le enough

/-- One file and one forced put. -/
def oneFile : TraceSetup where
  toBinding := .init 1 1 16 1
  nodes := 1
  readToLeader := true
  multinodeWrite := true
  qpsPositive := true
  truncate := true
  lineSeparator := [13, 10]
  nodes_range := by decide
  separator_cases := Or.inr rfl

def oneRead : List (TraceAction Bool) :=
  [.init true, .init false, .begin true (.read (some [120])), .advance true, .advance true,
    .advance true, .advance true, .draw true 7] ++ List.replicate 6 (.advance true)

theorem trace_preloads_oneRead :
    ∃ s, (traceThreads Bool oneFile).run beforeTrace oneRead = some s ∧
      (preload List.length 1 (some (latin1.encode (s.files 0))) .empty).2 = 1 := by
  have ran : ((traceThreads Bool oneFile).run beforeTrace oneRead).map
      (fun s => ((s.pc true).op, (s.pc false).op)) = some (none, none) := by decide +kernel
  obtain ⟨s, run, idle⟩ := Option.map_eq_some_iff.mp ran
  have counts : ((traceThreads Bool oneFile).run beforeTrace oneRead).map
      (fun s => (s.firstOp, s.opCount)) = some (0, 1) := by decide +kernel
  have opened : ((traceThreads Bool oneFile).run beforeTrace oneRead).map
      (fun s => s.opened 0) = some [] := by decide +kernel
  have returned : ((traceThreads Bool oneFile).run beforeTrace oneRead).map
      (fun s => s.returned) = some [(⟨.read (some [120]), 0⟩, true)] := by decide +kernel
  rw [run, Option.map_some, Option.some_inj] at counts opened returned
  obtain ⟨first, second⟩ := Prod.mk.inj idle
  obtain ⟨start, ops⟩ := Prod.mk.inj counts
  have reached : (traceThreads Bool oneFile).Reachable s := .of_run oneRead
    (.start ⟨rfl, rfl, rfl, rfl, rfl, rfl, rfl, fun _ => rfl, fun _ => rfl, rfl, rfl, rfl⟩) run
  refine ⟨s, run, (trace_preloads oneFile latin1 List.length reached ?_ start ?_ ?_ ?_ 1
    (by decide) (Nat.le_of_eq ops.symm)).2 rfl⟩
  · rintro (_ | _)
    · exact second
    · exact first
  · intro node inRange
    obtain rfl : node = 0 := by
      have lt : node < 1 := inRange
      omega
    exact opened
  · rw [ops]
    decide
  · intro r member
    rw [returned, List.mem_singleton] at member
    subst member
    have key : (oneFile.normalizeKey (some [120])).all (fun c => c != 58 && c != 10 && c != 13) :=
      by decide
    have value : oneFile.fixedValue.all fun v => v.all fun c => c != 10 && c != 13 := by decide
    simp only [List.all_eq_true, Option.all_eq_true, Bool.and_eq_true, bne_iff_ne, and_assoc]
      at key value
    exact ⟨Or.inl (by decide), key, value⟩

end BandleCxl.Guarantees
