import BandleCxl.Guarantees.TraceRoundTrip
import BandleCxl.Invariant.TraceCounts
import BandleCxl.Invariant.TraceThreads

/-!
What any number of YCSB threads write into the node files. However they interleave, a file is
whole lines in the order of their timestamps, the lines of all files are those of the calls that
returned `Status.OK`, and no call waits forever for a lock.
-/
namespace BandleCxl.Guarantees
open Library Source Invariant

variable {b : TraceSetup} {charset : Charset}

/-! ### Bytes -/

/-- An ASCII character starts anew, whatever stands before it. -/
theorem encode_append_cons (charset : Charset) (before : JChars) {c : UInt16} (after : JChars)
    (small : c < 128) :
    charset.encode (before ++ c :: after) = charset.encode before ++ charset.encode (c :: after) := by
  rw [charset.ascii before c after small, encode_cons charset c after small]

/-- A line starts with a digit. -/
theorem text_eq_cons (b : TraceSetup) (r : TraceRecord) :
    ∃ c rest, r.text b = c :: rest ∧ c < 128 := by
  have digits := decimal_range r.ts
  cases shape : decimal r.ts with
  | nil => exact absurd shape (decimal_ne_nil r.ts)
  | cons d ds =>
    rw [shape] at digits
    have range := digits d (by simp)
    refine ⟨d.toUInt16, ?_⟩
    refine ⟨ds.map (·.toUInt16) ++ (44 :: (b.lineOf r.op ++ b.lineSeparator)), ?_, ?_⟩
    · simp [TraceRecord.text, TraceSetup.pieces, shape]
    · rw [UInt16.lt_iff_toNat_lt, UInt8.toNat_toUInt16]
      exact Nat.lt_of_le_of_lt range.2 (by decide)

/-- The bytes of a line are those of `appendLine` and of the line separator. -/
theorem encode_text (charset : Charset) (b : TraceSetup) (r : TraceRecord) :
    charset.encode (r.text b) =
      appendLine charset r.ts (b.lineOf r.op) ++ charset.encode b.lineSeparator := by
  have text : r.text b =
      ((decimal r.ts).map (·.toUInt16) ++ 44 :: b.lineOf r.op) ++ b.lineSeparator := by
    simp [TraceRecord.text, TraceSetup.pieces]
  rw [text, appendLine]
  rcases b.separator_cases with unix | dos
  · rw [unix]
    exact encode_append_cons charset _ _ (by decide)
  · rw [dos]
    exact encode_append_cons charset _ _ (by decide)

theorem encode_lines (charset : Charset) (b : TraceSetup) (before : JChars)
    (records : List TraceRecord) :
    charset.encode (before ++ records.flatMap (TraceRecord.text b)) =
      charset.encode before ++ records.flatMap fun r =>
        appendLine charset r.ts (b.lineOf r.op) ++ charset.encode b.lineSeparator := by
  induction records generalizing before with
  | nil => simp
  | cons r rest ih =>
    obtain ⟨c, line, shape, small⟩ := text_eq_cons b r
    have head := ih (r.text b)
    rw [List.flatMap_cons, List.flatMap_cons]
    rw [encode_text] at head
    rw [← head, shape, List.cons_append]
    exact encode_append_cons charset before _ small

/-! ### Files -/

variable {T : Type*} [DecidableEq T] {s : TraceState T}

/-- The part of a line that stands behind the whole lines of a file. -/
def begunAt (b : TraceSetup) (s : TraceState T) (node : Nat) : JChars :=
  match s.writerLocks node with
  | some t => (s.pc t).begun b
  | none => []

/-- In every reachable state of any number of threads: a file is what it held when it was
opened, whole lines with timestamps that do not decrease, and what the holder of its writer has
written of one more line; the lines of all files together are the calls that returned
`Status.OK` since the files were opened, each once; and the bytes of a file that nobody writes
are those lines in any charset. No call fails in the first `2 ^ 63`. -/
theorem trace_files [Fintype T] (b : TraceSetup) (charset : Charset)
    (reached : (traceThreads T b).Reachable s) :
    ∃ records : Nat → List TraceRecord,
      (∀ node, s.files node =
        s.opened node ++ (records node).flatMap (TraceRecord.text b) ++ begunAt b s node) ∧
      (∀ node, (records node).Pairwise fun r r' => r.ts ≤ r'.ts) ∧
      (written b records).Perm (succeeded s.returned) ∧
      (∀ node, s.writerLocks node = none → charset.encode (s.files node) =
        charset.encode (s.opened node) ++ (records node).flatMap fun r =>
          appendLine charset r.ts (b.lineOf r.op) ++ charset.encode b.lineSeparator) ∧
      (s.opCount < 2 ^ 63 → ∀ r ∈ s.returned, r.2 = true) := by
  obtain ⟨locked, records, filed⟩ := traceInv_of_reachable reached
  have tallies := tallies_of_reachable reached
  refine ⟨records, ?_, filed.sorted, filed.returned, ?_, fun small => (tallies.valid small).ok⟩
  · intro node
    unfold begunAt
    cases holder : s.writerLocks node with
    | none => exact (filed.free node holder).trans (List.append_nil _).symm
    | some t => exact filed.held t node ((locked.writers node t).mp holder)
  · intro node unheld
    rw [filed.free node unheld]
    exact encode_lines charset b _ _

/-- Two files, truncated when they are opened, and keys of one character. -/
def twoFiles : TraceSetup where
  toBinding := .init 1 1 16 1
  nodes := 2
  readToLeader := true
  multinodeWrite := true
  qpsPositive := true
  truncate := true
  lineSeparator := [10]
  nodes_range := by decide
  separator_cases := Or.inl rfl

/-- Nothing has happened; the files hold a letter each. -/
def beforeTrace : TraceState Bool where
  initialized := false
  instances := 0
  opCount := 0
  readCount := 0
  writeCount := 0
  lastEmitted := 0
  tsLock := none
  writerLocks := fun _ => none
  files := fun _ => [97]
  pc := fun _ => .outside
  opened := fun _ => [97]
  firstOp := 0
  returned := []

/-- Both threads read; the first read is a put, for `preloadCount`. One thread returns while the
other one is still writing. -/
def twoReads : List (TraceAction Bool) :=
  [.init true, .init false, .begin true (.read (some [120])), .begin false (.read (some [121])),
    .advance true, .advance false, .advance true, .advance false, .advance true, .advance true,
    .draw true 7, .advance true, .advance true, .advance true, .advance true, .advance true,
    .advance true, .advance false, .advance false, .draw false 5, .advance false, .advance false]

theorem start_twoReads : (traceThreads Bool twoFiles).Reachable beforeTrace :=
  .start ⟨rfl, rfl, rfl, rfl, rfl, rfl, rfl, fun _ => rfl, fun _ => rfl, rfl, rfl, rfl⟩

theorem trace_files_twoReads :
    ∃ s, (traceThreads Bool twoFiles).run beforeTrace twoReads = some s ∧
      ∃ records : Nat → List TraceRecord,
        (∀ node, s.files node = s.opened node ++
          (records node).flatMap (TraceRecord.text twoFiles) ++ begunAt twoFiles s node) ∧
        (written twoFiles records).Perm [⟨.read (some [120]), 0⟩] := by
  have ran : ((traceThreads Bool twoFiles).run beforeTrace twoReads).map
      (fun s => succeeded s.returned) = some [⟨.read (some [120]), 0⟩] := by decide +kernel
  obtain ⟨s, run, returned⟩ := Option.map_eq_some_iff.mp ran
  obtain ⟨records, files, -, lines, -⟩ := trace_files twoFiles latin1
    (TransitionSystem.Reachable.of_run twoReads start_twoReads run)
  rw [returned] at lines
  exact ⟨s, run, records, files, lines⟩

/-! ### Progress -/

/-- How many actions a thread is from the end of its call. -/
def toGo : TracePc → Nat
  | .outside | .idle => 0
  | .numbered _ => 11
  | .tallied _ => 10
  | .chosen _ _ => 9
  | .holding _ _ => 8
  | .drawing _ _ => 7
  | .drawn _ _ _ => 6
  | .writing _ _ _ written => 4 - written + 1

/-- A thread came nearer to the end of its call, or the call has returned. -/
structure Nearer (s s' : TraceState T) (t : T) (pc' : TracePc) : Prop where
  moved : s'.pc = Function.update s.pc t pc'
  less : toGo pc' < toGo (s.pc t)
  returned : ∀ r ∈ s.returned, r ∈ s'.returned
  kept : ∀ op, (s.pc t).op = some op → pc'.op = some op ∨ ∃ ok, (op, ok) ∈ s'.returned

variable {s' : TraceState T} {t : T}

theorem advance_nearer (stepped : s.advanceStep b t = some s') : ∃ pc', Nearer s s' t pc' := by
  unfold TraceState.advanceStep at stepped
  split at stepped
  · next op here =>
    have kept : ∀ op', (s.pc t).op = some op' → (TracePc.tallied op).op = some op' := by
      rw [here]
      exact fun op' same => same
    split at stepped <;> obtain rfl := Option.some.inj stepped <;>
      exact ⟨_, rfl, by rw [here]; exact Nat.lt_succ_self 10, fun r member => member,
        fun op' same => Or.inl (kept op' same)⟩
  · next op here =>
    obtain rfl := Option.some.inj stepped
    refine ⟨_, rfl, by rw [here]; exact Nat.lt_succ_self 9, fun r member => member, ?_⟩
    rw [here]
    exact fun op' same => Or.inl same
  · next op node here =>
    split at stepped
    · obtain rfl := Option.some.inj stepped
      refine ⟨_, rfl, by rw [here]; exact Nat.succ_pos 8,
        fun r member => List.mem_append_left _ member, ?_⟩
      rw [here]
      intro op' same
      obtain rfl := Option.some.inj same
      exact Or.inr ⟨false, List.mem_append_right _ (List.mem_singleton.mpr rfl)⟩
    · split at stepped
      · cases stepped
      · obtain rfl := Option.some.inj stepped
        refine ⟨_, rfl, by rw [here]; exact Nat.lt_succ_self 8, fun r member => member, ?_⟩
        rw [here]
        exact fun op' same => Or.inl same
  · next op node here =>
    split at stepped
    · cases stepped
    · obtain rfl := Option.some.inj stepped
      refine ⟨_, rfl, by rw [here]; exact Nat.lt_succ_self 7, fun r member => member, ?_⟩
      rw [here]
      exact fun op' same => Or.inl same
  · next op node ts here =>
    obtain rfl := Option.some.inj stepped
    refine ⟨_, rfl, by rw [here]; exact Nat.lt_succ_self 5, fun r member => member, ?_⟩
    rw [here]
    exact fun op' same => Or.inl same
  · next op node ts count here =>
    split at stepped
    · next piece next =>
      have within : count < 4 := (List.getElem?_eq_some_iff.mp next).1
      obtain rfl := Option.some.inj stepped
      refine ⟨_, rfl, ?_, fun r member => member, ?_⟩
      · rw [here]
        simp only [toGo]
        omega
      · rw [here]
        exact fun op' same => Or.inl same
    · obtain rfl := Option.some.inj stepped
      refine ⟨_, rfl, by rw [here]; exact Nat.succ_pos _,
        fun r member => List.mem_append_left _ member, ?_⟩
      rw [here]
      intro op' same
      obtain rfl := Option.some.inj same
      exact Or.inr ⟨true, List.mem_append_right _ (List.mem_singleton.mpr rfl)⟩
  · cases stepped

theorem draw_nearer {floored : Nat} (stepped : s.drawStep b t floored = some s') :
    ∃ pc', Nearer s s' t pc' := by
  unfold TraceState.drawStep at stepped
  split at stepped
  · next op node here =>
    split at stepped
    · obtain rfl := Option.some.inj stepped
      refine ⟨_, rfl, by rw [here]; exact Nat.lt_succ_self 6, fun r member => member, ?_⟩
      rw [here]
      exact fun op' same => Or.inl same
    · cases stepped
  · cases stepped

/-- An action inside a call. -/
def Internal : TraceAction T → Prop
  | .advance _ | .draw _ _ => True
  | _ => False

/-- Whoever has `TS_LOCK` goes on, then whoever has a writer, and then everybody. -/
theorem exists_nearer [Fintype T] (locked : Locked b s) (busy : toGo (s.pc t) ≠ 0) :
    ∃ a s' u pc', Internal a ∧ s.step b a = some s' ∧ Nearer s s' u pc' := by
  have advance : ∀ u, (∃ s', s.advanceStep b u = some s') →
      ∃ a s' u pc', Internal a ∧ s.step b a = some s' ∧ Nearer s s' u pc' := by
    rintro u ⟨s', stepped⟩
    obtain ⟨pc', nearer⟩ := advance_nearer stepped
    exact ⟨.advance u, s', u, pc', trivial, stepped, nearer⟩
  cases stamper : s.tsLock with
  | some u =>
    have stamping := (locked.stamps () u).mp stamper
    rw [Function.comp_apply] at stamping
    cases here : s.pc u with
    | drawing op node =>
      have stepped : (s.drawStep b u 0).isSome := by
        unfold TraceState.drawStep
        rw [here]
        simp
      obtain ⟨s', stepped⟩ := Option.isSome_iff_exists.mp stepped
      obtain ⟨pc', nearer⟩ := draw_nearer stepped
      exact ⟨.draw u 0, s', u, pc', trivial, stepped, nearer⟩
    | drawn op node ts =>
      refine advance u (Option.isSome_iff_exists.mp ?_)
      unfold TraceState.advanceStep
      rw [here]
      rfl
    | _ => simp [here, TracePc.stamping] at stamping
  | none =>
    have unstamped := locked.stamps.not_held (m := ()) stamper
    by_cases writer : ∃ u node, (s.pc u).node = some node
    · obtain ⟨u, node, holds⟩ := writer
      have free := unstamped u
      rw [Function.comp_apply] at free
      cases here : s.pc u with
      | holding op node =>
        refine advance u (Option.isSome_iff_exists.mp ?_)
        unfold TraceState.advanceStep
        rw [here]
        dsimp only
        rw [stamper]
        rfl
      | writing op node ts count =>
        refine advance u (Option.isSome_iff_exists.mp ?_)
        unfold TraceState.advanceStep
        rw [here]
        dsimp only
        split <;> rfl
      | drawing op node => simp [here, TracePc.stamping] at free
      | drawn op node ts => simp [here, TracePc.stamping] at free
      | _ => simp [here, TracePc.node] at holds
    · refine advance t (Option.isSome_iff_exists.mp ?_)
      have nobody : ∀ node, s.writerLocks node = none := by
        intro node
        cases holder : s.writerLocks node with
        | none => rfl
        | some u => exact absurd ⟨u, node, (locked.writers node u).mp holder⟩ writer
      have mine : (s.pc t).node = none := by
        cases held : (s.pc t).node with
        | none => rfl
        | some node => exact absurd ⟨t, node, held⟩ writer
      unfold TraceState.advanceStep
      cases here : s.pc t with
      | outside => simp [here, toGo] at busy
      | idle => simp [here, toGo] at busy
      | numbered op =>
        dsimp only
        split <;> rfl
      | tallied op => rfl
      | chosen op node =>
        dsimp only
        rw [nobody]
        split <;> rfl
      | _ => simp [here, TracePc.node] at mine

/-- All calls of `s` are done or go on in `s'`. -/
structure Onward (s s' : TraceState T) : Prop where
  returned : ∀ r ∈ s.returned, r ∈ s'.returned
  kept : ∀ t op, (s.pc t).op = some op → (s'.pc t).op = some op ∨ ∃ ok, (op, ok) ∈ s'.returned

theorem Nearer.onward {pc' : TracePc} (h : Nearer s s' t pc') : Onward s s' where
  returned := h.returned
  kept u op under := by
    rw [h.moved]
    rcases eq_or_ne u t with rfl | other
    · rw [Function.update_self]
      exact h.kept op under
    · rw [Function.update_of_ne other]
      exact Or.inl under

theorem Nearer.sum_lt [Fintype T] {pc' : TracePc} (h : Nearer s s' t pc') :
    ∑ u, toGo (s'.pc u) < ∑ u, toGo (s.pc u) := by
  refine Finset.sum_lt_sum (fun u _ => ?_) ⟨t, Finset.mem_univ t, ?_⟩
  · rw [h.moved]
    rcases eq_or_ne u t with rfl | other
    · rw [Function.update_self]
      exact Nat.le_of_lt h.less
    · rw [Function.update_of_ne other]
  · rw [h.moved, Function.update_self]
    exact h.less

omit [DecidableEq T] in
theorem Onward.trans {s'' : TraceState T} (h : Onward s s') (h' : Onward s' s'') :
    Onward s s'' where
  returned r member := h'.returned r (h.returned r member)
  kept t op under := by
    rcases h.kept t op under with still | ⟨ok, member⟩
    · exact h'.kept t op still
    · exact Or.inr ⟨ok, h'.returned _ member⟩

theorem exists_completion [Fintype T] (inv : TraceInv b s) :
    ∃ schedule s', (∀ a ∈ schedule, Internal a) ∧ (traceThreads T b).run s schedule = some s' ∧
      (∀ t, (s'.pc t).op = none) ∧ Onward s s' := by
  induction left : ∑ u, toGo (s.pc u) using Nat.strong_induction_on generalizing s with
  | _ n ih =>
    subst left
    by_cases busy : ∃ t, toGo (s.pc t) ≠ 0
    · obtain ⟨t, busy⟩ := busy
      obtain ⟨a, middle, u, pc', internal, stepped, nearer⟩ := exists_nearer inv.locked busy
      obtain ⟨schedule, s', all, ran, quiet, onward⟩ :=
        ih _ nearer.sum_lt (inv.step stepped) rfl
      refine ⟨a :: schedule, s', ?_, ?_, quiet, nearer.onward.trans onward⟩
      · simpa using ⟨internal, all⟩
      · rw [TransitionSystem.run]
        exact Option.bind_eq_some_iff.mpr ⟨middle, stepped, ran⟩
    · have done : ∀ t, (s.pc t).op = none := by
        intro t
        have zero : toGo (s.pc t) = 0 := by
          by_contra some
          exact busy ⟨t, some⟩
        cases here : s.pc t <;> simp_all [toGo, TracePc.op]
      have none_left : ∀ a ∈ ([] : List (TraceAction T)), Internal a := by simp
      exact ⟨[], s, none_left, rfl, done, fun r member => member, fun t op under => Or.inl under⟩

/-- From every reachable state the calls under way can all be brought to their return by
actions inside calls: however they stand, they do not wait for each other in a circle. -/
theorem trace_calls_complete [Fintype T] (b : TraceSetup)
    (reached : (traceThreads T b).Reachable s) :
    ∃ schedule s', (∀ a ∈ schedule, Internal a) ∧ (traceThreads T b).run s schedule = some s' ∧
      (∀ t, (s'.pc t).op = none) ∧
      ∀ t op, (s.pc t).op = some op → ∃ ok, (op, ok) ∈ s'.returned := by
  obtain ⟨schedule, s', all, ran, quiet, onward⟩ :=
    exists_completion (traceInv_of_reachable reached)
  refine ⟨schedule, s', all, ran, quiet, fun t op under => ?_⟩
  rcases onward.kept t op under with still | returned
  · rw [quiet t] at still
    cases still
  · exact returned

theorem trace_calls_complete_twoReads :
    ∃ s, (traceThreads Bool twoFiles).run beforeTrace (twoReads.take 12) = some s ∧
      ∃ schedule s', (traceThreads Bool twoFiles).run s schedule = some s' ∧
        ∃ ok, (⟨.read (some [121]), 1⟩, ok) ∈ s'.returned := by
  have ran : ((traceThreads Bool twoFiles).run beforeTrace (twoReads.take 12)).map
      (fun s => (s.pc false).op) = some (some ⟨.read (some [121]), 1⟩) := by decide +kernel
  obtain ⟨s, run, under⟩ := Option.map_eq_some_iff.mp ran
  obtain ⟨schedule, s', -, ran', -, returned⟩ := trace_calls_complete twoFiles
    (TransitionSystem.Reachable.of_run (twoReads.take 12) start_twoReads run)
  exact ⟨s, run, schedule, s', ran', returned false _ under⟩

end BandleCxl.Guarantees
