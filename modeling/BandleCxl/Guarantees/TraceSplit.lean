import BandleCxl.Invariant.TraceLine
import BandleCxl.Library.Shares
import BandleCxl.Source.TraceSplit

/-!
The splitter deals the accepted lines out. Both passes count the same lines; the node files
are an order-preserving partition of them, balanced after every line, and end at the same
time. A file has too few lines for a count to wrap or to reach `UINT64_MAX`.
-/
namespace BandleCxl.Guarantees
open Library Source Invariant

/-! ### Which lines are taken -/

abbrev TraceEntry := Bytes × ParsedOp

/-- The lines that `parse_line` accepts, with what it reads of them. -/
def acceptedEntries (lines : List Bytes) : List TraceEntry :=
  lines.filterMap fun line => (parseLine line {}).map (line, ·)

/-- The first `max_ops` of them, or all if it is zero. -/
def selectedEntries (maxOps : Nat) (lines : List Bytes) : List TraceEntry :=
  if maxOps = 0 then acceptedEntries lines else (acceptedEntries lines).take maxOps

theorem selectedEntries_sublist (maxOps : Nat) (lines : List Bytes) :
    (selectedEntries maxOps lines).Sublist (acceptedEntries lines) := by
  unfold selectedEntries
  split
  · exact List.Sublist.refl _
  · exact List.take_sublist _ _

theorem selectedEntries_parsed {maxOps : Nat} {lines : List Bytes} {e : TraceEntry}
    (member : e ∈ selectedEntries maxOps lines) : parseLine e.1 {} = some e.2 := by
  obtain ⟨line, -, found⟩ :=
    List.mem_filterMap.mp ((selectedEntries_sublist maxOps lines).subset member)
  obtain ⟨op, parsed, rfl⟩ := Option.map_eq_some_iff.mp found
  exact parsed

theorem acceptedEntries_length (lines : List Bytes) :
    (acceptedEntries lines).length ≤ lines.length := List.length_filterMap_le _ _

theorem linesOf_length (bytes : Bytes) : (linesOf bytes).length ≤ bytes.length := by
  induction bytes with
  | nil => exact Nat.le_refl _
  | cons b rest ih =>
    rw [linesOf]
    split
    · exact Nat.succ_le_succ ih
    · split
      · exact Nat.succ_le_succ (Nat.zero_le _)
      · next line lines eq =>
        rw [eq] at ih
        exact Nat.le_succ_of_le ih

theorem dataset_lines_lt (dataset : Dataset) : dataset.lines.length < 2 ^ 63 :=
  Nat.lt_of_le_of_lt (linesOf_length _) dataset.size

theorem add64_one {a : Nat} (small : a + 1 < 2 ^ 64) : add64 a 1 = a + 1 := Nat.mod_eq_of_lt small

/-- The entries a pass still takes after `total` lines. -/
def remaining (maxOps total : Nat) (lines : List Bytes) : List TraceEntry :=
  if maxOps = 0 then acceptedEntries lines else (acceptedEntries lines).take (maxOps - total)

/-- Both passes count the selected lines and no others. -/
theorem scanDataset_eq {σ : Type*} {maxOps : Nat} {total : σ → Nat}
    {count : σ → Bytes → ParsedOp → σ}
    (counts : ∀ s line op, total (count s line op) = add64 (total s) 1)
    (lines : List Bytes) (s : σ) (room : total s + lines.length < 2 ^ 64) :
    scanDataset maxOps total count lines s =
      (remaining maxOps (total s) lines).foldl (fun s e => count s e.1 e.2) s := by
  induction lines generalizing s with
  | nil => simp [scanDataset, remaining, acceptedEntries]
  | cons line lines ih =>
    rw [List.length_cons] at room
    rw [scanDataset]
    cases parsed : parseLine line {} with
    | none =>
      have skip : acceptedEntries (line :: lines) = acceptedEntries lines := by
        simp [acceptedEntries, parsed]
      simp only [remaining, skip]
      exact ih s (by omega)
    | some op =>
      have take : acceptedEntries (line :: lines) = (line, op) :: acceptedEntries lines := by
        simp [acceptedEntries, parsed]
      have one : total (count s line op) = total s + 1 := by rw [counts, add64_one (by omega)]
      have next := ih (count s line op) (by omega)
      simp only [remaining, take, one] at next ⊢
      by_cases all : maxOps = 0
      · rw [if_neg (by omega), next, if_pos all, if_pos all, List.foldl_cons]
      · rw [if_neg all] at next ⊢
        by_cases full : total s ≥ maxOps
        · rw [if_pos ⟨by omega, full⟩, Nat.sub_eq_zero_of_le full, List.take_zero, List.foldl_nil]
        · have room : maxOps - total s = (maxOps - (total s + 1)) + 1 := by omega
          rw [if_neg (by omega), next, room, List.take_succ_cons, List.foldl_cons]

theorem firstPass_eq (maxOps : Nat) (dataset : Dataset) :
    firstPass maxOps dataset.lines =
      (selectedEntries maxOps dataset.lines).foldl (fun s e => s.count e.1 e.2) {} :=
  scanDataset_eq (fun _ _ _ => rfl) _ _ (by have := dataset_lines_lt dataset; simp; omega)

theorem secondPass_eq {n : Nat} (maxOps : Nat) (multinodeWrites : Bool) (dataset : Dataset) :
    (secondPass maxOps multinodeWrites dataset.lines : Splitter n) =
      (selectedEntries maxOps dataset.lines).foldl
        (fun s e => s.count multinodeWrites e.1 e.2) {} :=
  scanDataset_eq (fun _ _ _ => rfl) _ _ (by have := dataset_lines_lt dataset; simp; omega)

/-- What pass 1 knows after the entries. -/
theorem firstPass_foldl (entries : List TraceEntry) (s : FirstPass) :
    (entries.foldl (fun s e => s.count e.1 e.2) s).chosen = s.chosen ++ entries.map Prod.fst ∧
      (entries.foldl (fun s e => s.count e.1 e.2) s).endTsUs =
        (entries.getLast?.map (·.2.tsUs)).getD s.endTsUs := by
  induction entries generalizing s with
  | nil => simp
  | cons e entries ih =>
    obtain ⟨chosen, time⟩ := ih (s.count e.1 e.2)
    rw [List.foldl_cons, chosen, time]
    constructor
    · simp [FirstPass.count]
    · cases entries with
      | nil => rfl
      | cons e' entries =>
        rw [List.getLast?_cons_cons]
        simp [List.getLast?_cons]

/-- The last selected timestamp; zero if there is none. -/
def endTime (entries : List TraceEntry) : Nat := (entries.getLast?.map (·.2.tsUs)).getD 0

theorem firstPass_endTsUs (maxOps : Nat) (dataset : Dataset) :
    (firstPass maxOps dataset.lines).endTsUs = endTime (selectedEntries maxOps dataset.lines) := by
  rw [firstPass_eq]
  exact (firstPass_foldl _ {}).2

/-! ### The greedy choice -/

section
variable {n : Nat} {counts lastTs : Fin (n + 1) → Nat}

theorem foldl_consider (counts lastTs : Fin (n + 1) → Nat) (nodes : List (Fin (n + 1)))
    (best : Best n) :
    let r := nodes.foldl (Best.consider counts lastTs) best
    r.count ≤ best.count ∧ (∀ j ∈ nodes, r.count ≤ counts j) ∧
      (r = best ∨ counts r.node = r.count) := by
  induction nodes generalizing best with
  | nil => simp
  | cons i nodes ih =>
    obtain ⟨below, least, source⟩ := ih (best.consider counts lastTs i)
    rw [List.foldl_cons]
    have step : (best.consider counts lastTs i).count ≤ best.count ∧
        (best.consider counts lastTs i).count ≤ counts i ∧
        (best.consider counts lastTs i = best ∨
          counts (best.consider counts lastTs i).node = (best.consider counts lastTs i).count) := by
      unfold Best.consider
      split
      · exact ⟨by dsimp only; omega, Nat.le_refl _, Or.inr rfl⟩
      · exact ⟨Nat.le_refl _, by omega, Or.inl rfl⟩
    obtain ⟨first, seen, kept⟩ := step
    refine ⟨Nat.le_trans below first, ?_, ?_⟩
    · intro j member
      rcases List.mem_cons.mp member with rfl | later
      · exact Nat.le_trans below seen
      · exact least j later
    · rcases source with same | found
      · rw [same]
        exact kept
      · exact Or.inr found

/-- Below `UINT64_MAX` the chosen node has the smallest count. -/
theorem bestNode_least (small : ∀ i, counts i < 2 ^ 64 - 1) (j : Fin (n + 1)) :
    counts (bestNode counts lastTs) ≤ counts j := by
  obtain ⟨-, least, source⟩ := foldl_consider counts lastTs (List.finRange (n + 1)) {}
  rcases source with same | found
  · have none := least 0 (List.mem_finRange 0)
    rw [same] at none
    exact absurd (small 0) (Nat.not_lt.mpr none)
  · rw [bestNode, found]
    exact least j (List.mem_finRange j)

end

/-! ### The log of a pass -/

def TraceEntry.isRead (e : TraceEntry) : Bool := e.2.op == opG

def TraceEntry.isWrite (e : TraceEntry) : Bool := !e.isRead

variable {n : Nat}

abbrev SplitLog (n : Nat) := List (TraceEntry × Fin (n + 1))

/-- Which assignments of lines to nodes are fair. -/
structure Fair (multinodeWrites : Bool) (log : SplitLog n) : Prop where
  reads : ∀ p, p <+: log → Balanced fun i => (share p i).countP TraceEntry.isRead
  writes : multinodeWrites = true →
    ∀ p, p <+: log → Balanced fun i => (share p i).countP TraceEntry.isWrite
  single : multinodeWrites = false → ∀ e ∈ log, e.1.isWrite = true → e.2 = 0

/-- What the variables of pass 2 say about the lines so far. -/
structure Tracks (log : SplitLog n) (s : Splitter n) : Prop where
  chosen : s.chosen = log.map (·.1.1)
  outs : ∀ i, s.outs i = (share log i).map Prod.fst
  readCounts : ∀ i, s.readCounts i = (share log i).countP TraceEntry.isRead
  writeCounts : ∀ i, s.writeCounts i = (share log i).countP TraceEntry.isWrite
  lastTs : ∀ i, s.lastTs i = endTime (share log i)

theorem share_count_le (log : SplitLog n) (p : TraceEntry → Bool) (i : Fin (n + 1)) :
    (share log i).countP p ≤ log.length := by
  calc (share log i).countP p ≤ (share log i).length := List.countP_le_length
    _ ≤ (log.map Prod.fst).length := (share_sublist log i).length_le
    _ = log.length := List.length_map _

section
variable {multinodeWrites : Bool} {log : SplitLog n} {s : Splitter n}

theorem Fair.nil : Fair multinodeWrites ([] : SplitLog n) where
  reads := by
    intro p start
    rw [List.prefix_nil.mp start]
    exact balanced_zero
  writes := by
    intro _ p start
    rw [List.prefix_nil.mp start]
    exact balanced_zero
  single := by simp

theorem Tracks.nil : Tracks ([] : SplitLog n) {} where
  chosen := rfl
  outs := fun _ => rfl
  readCounts := fun _ => rfl
  writeCounts := fun _ => rfl
  lastTs := fun _ => rfl

/-- A count of which the next entry is given to a node that has the fewest stays balanced,
and one to which it does not belong is unchanged. -/
theorem balanced_concat {p : TraceEntry → Bool} {e : TraceEntry} {i : Fin (n + 1)}
    (before : ∀ q, q <+: log → Balanced fun j => (share q j).countP p)
    (least : p e = true → ∀ j, (share log i).countP p ≤ (share log j).countP p) :
    ∀ q, q <+: log ++ [(e, i)] → Balanced fun j => (share q j).countP p := by
  apply forall_prefix_concat before
  have balanced := before log (List.prefix_refl log)
  simp only [countP_share_concat]
  by_cases counted : p e = true
  · exact balanced.add_least (least counted) (by simp [counted])
  · simpa [counted] using balanced

/-- The next line goes to the target node and keeps the log fair. -/
theorem Fair.step (fair : Fair multinodeWrites log) (tracks : Tracks log s)
    (room : log.length < 2 ^ 64 - 1) (e : TraceEntry) :
    Fair multinodeWrites (log ++ [(e, s.targetNode multinodeWrites e.2.op)]) where
  reads := by
    refine balanced_concat fair.reads fun read => ?_
    have op : e.2.op = opG := by simpa [TraceEntry.isRead] using read
    have small : ∀ i, s.readCounts i < 2 ^ 64 - 1 := fun i =>
      Nat.lt_of_le_of_lt (tracks.readCounts i ▸ share_count_le log _ i) room
    intro j
    rw [Splitter.targetNode, if_pos op, ← tracks.readCounts, ← tracks.readCounts]
    exact bestNode_least small j
  writes := by
    intro multi
    refine balanced_concat (fair.writes multi) fun write => ?_
    have op : e.2.op ≠ opG := by simpa [TraceEntry.isWrite, TraceEntry.isRead] using write
    have small : ∀ i, s.writeCounts i < 2 ^ 64 - 1 := fun i =>
      Nat.lt_of_le_of_lt (tracks.writeCounts i ▸ share_count_le log _ i) room
    intro j
    rw [Splitter.targetNode, if_neg op, if_pos multi, ← tracks.writeCounts, ← tracks.writeCounts]
    exact bestNode_least small j
  single := by
    intro one e' member write
    rcases List.mem_append.mp member with early | now
    · exact fair.single one e' early write
    · rw [List.mem_singleton.mp now] at write ⊢
      have op : e.2.op ≠ opG := by simpa [TraceEntry.isWrite, TraceEntry.isRead] using write
      simp [Splitter.targetNode, op, one]

theorem endTime_concat (entries : List TraceEntry) (e : TraceEntry) :
    endTime (entries ++ [e]) = e.2.tsUs := by
  simp [endTime]

theorem update_apply_eq {α : Type*} (f : Fin (n + 1) → α) (i j : Fin (n + 1)) (a : α) :
    Function.update f i a j = if i = j then a else f j := by
  rw [Function.update_apply]
  simp only [eq_comm]

/-- A counter goes up with the entries that it counts. -/
theorem counter_concat {p : TraceEntry → Bool} {counts : Fin (n + 1) → Nat}
    (same : ∀ j, counts j = (share log j).countP p) (room : log.length < 2 ^ 64 - 1)
    (e : TraceEntry) (i j : Fin (n + 1)) :
    (if p e = true then Function.update counts i (add64 (counts i) 1) else counts) j =
      (share (log ++ [(e, i)]) j).countP p := by
  have bound := share_count_le log p i
  rw [countP_share_concat, ← same]
  rw [← same] at bound
  by_cases counted : p e = true
  · rw [if_pos counted, update_apply_eq, add64_one (by omega)]
    by_cases here : i = j
    · rw [if_pos here, if_pos ⟨counted, here⟩, here]
    · rw [if_neg here, if_neg (fun both => here both.2), Nat.add_zero]
  · rw [if_neg counted, if_neg (fun both => counted both.1), Nat.add_zero]

theorem Tracks.step (tracks : Tracks log s) (room : log.length < 2 ^ 64 - 1) (e : TraceEntry) :
    Tracks (log ++ [(e, s.targetNode multinodeWrites e.2.op)])
      (s.count multinodeWrites e.1 e.2) where
  chosen := by simp [Splitter.count, tracks.chosen]
  outs := by
    intro j
    rw [Splitter.count, share_concat, List.map_append, ← tracks.outs]
    dsimp only
    rw [update_apply_eq]
    split
    · next here => rw [here, List.map_singleton]
    · rw [List.map_nil, List.append_nil]
  readCounts := by
    intro j
    rw [← counter_concat tracks.readCounts room]
    by_cases op : e.2.op = opG <;> simp [Splitter.count, TraceEntry.isRead, op]
  writeCounts := by
    intro j
    rw [← counter_concat tracks.writeCounts room]
    by_cases op : e.2.op = opG <;> simp [Splitter.count, TraceEntry.isWrite, TraceEntry.isRead, op]
  lastTs := by
    intro j
    rw [Splitter.count, share_concat]
    dsimp only
    rw [update_apply_eq]
    split
    · rw [endTime_concat]
    · rw [List.append_nil, tracks.lastTs]

/-- The whole pass: some fair log of exactly the entries. -/
theorem foldl_count (entries : List TraceEntry) (fair : Fair multinodeWrites log)
    (tracks : Tracks log s) (room : log.length + entries.length < 2 ^ 64) :
    ∃ log', log'.map Prod.fst = log.map Prod.fst ++ entries ∧ Fair multinodeWrites log' ∧
      Tracks log' (entries.foldl (fun s e => s.count multinodeWrites e.1 e.2) s) := by
  induction entries generalizing log s with
  | nil => exact ⟨log, (List.append_nil _).symm, fair, tracks⟩
  | cons e entries ih =>
    rw [List.length_cons] at room
    have step := ih (fair.step tracks (by omega) e) (tracks.step (by omega) e)
      (by rw [List.length_append, List.length_singleton]; omega)
    obtain ⟨log', items, fair', tracks'⟩ := step
    refine ⟨log', ?_, fair', tracks'⟩
    rw [items, List.map_append, List.map_singleton, List.append_assoc, List.singleton_append]

end

theorem secondPass_log (maxOps : Nat) (multinodeWrites : Bool) (dataset : Dataset) :
    ∃ log : SplitLog n, log.map Prod.fst = selectedEntries maxOps dataset.lines ∧
      Fair multinodeWrites log ∧ Tracks log (secondPass maxOps multinodeWrites dataset.lines) := by
  have few : (selectedEntries maxOps dataset.lines).length < 2 ^ 64 := by
    calc (selectedEntries maxOps dataset.lines).length
        ≤ (acceptedEntries dataset.lines).length := (selectedEntries_sublist _ _).length_le
      _ ≤ dataset.lines.length := acceptedEntries_length _
      _ < 2 ^ 64 := Nat.lt_trans (dataset_lines_lt dataset) (by decide)
  rw [secondPass_eq]
  have start : Fair multinodeWrites ([] : SplitLog n) := Fair.nil
  exact foldl_count (selectedEntries maxOps dataset.lines) start Tracks.nil
    (by rw [List.length_nil, Nat.zero_add]; exact few)

/-! ### Padding -/

/-- A pad line is a read at the end time. -/
theorem parseLine_padLine {endTsUs : Nat} (small : endTsUs < 2 ^ 64) (i : Fin (n + 1)) :
    ∃ p, parseLine (Splitter.padLine endTsUs i) {} = some p ∧ p.tsUs = endTsUs := by
  obtain ⟨-, noComma, comment⟩ := decimal_shape endTsUs
  let name : Bytes := [95, 95, 112, 97, 100, 95, 110, 111, 100, 101] ++ decimal (i + 1)
  have text : Splitter.padLine endTsUs i = decimal endTsUs ++ 44 :: 71 :: 32 :: name := by
    simp [Splitter.padLine, name]
  have shaped : Shaped (Splitter.padLine endTsUs i) (decimal endTsUs) 71 name := by
    rw [text]
    refine ⟨comment _, noComma, 71 :: 32 :: name, rfl, ?_⟩
    have letters : ∀ b ∈ ([71, 32, 95, 95, 112, 97, 100, 95, 110, 111, 100, 101] : Bytes),
        b ≠ 10 ∧ b ≠ 13 := by
      simp
    have digits : ∀ b ∈ decimal (i + 1), b ≠ 10 ∧ b ≠ 13 := by
      intro b member
      exact ⟨fun is => not_mem_decimal (by decide) _ (is ▸ member),
        fun is => not_mem_decimal (by decide) _ (is ▸ member)⟩
    have kept : ∀ b ∈ (71 :: 32 :: name : Bytes), b ≠ 10 ∧ b ≠ 13 :=
      fun b member => (List.mem_append.mp member).elim (letters b) (digits b)
    have whole := dropLineEnd_append kept (show ∀ b ∈ ([] : Bytes), b = 10 ∨ b = 13 by simp)
    rwa [List.append_nil] at whole
  rw [parseLine_shaped shaped (by simp [name])]
  exact ⟨_, by rw [stoull_decimal small]; rfl, rfl⟩

/-- Every node is padded at most once, from what it was before. -/
theorem foldl_pad (endTsUs : Nat) (nodes : List (Fin (n + 1))) (once : nodes.Nodup)
    (s : Splitter n) (i : Fin (n + 1)) :
    (nodes.foldl (Splitter.pad endTsUs) s).outs i =
      s.outs i ++ if i ∈ nodes ∧ s.lastTs i < endTsUs then [Splitter.padLine endTsUs i] else [] := by
  induction nodes generalizing s with
  | nil => simp
  | cons j nodes ih =>
    obtain ⟨fresh, once⟩ := List.nodup_cons.mp once
    rw [List.foldl_cons, ih once]
    by_cases here : i = j
    · subst here
      by_cases early : s.lastTs i < endTsUs
      · simp [Splitter.pad, early, fresh]
      · simp [Splitter.pad, early, fresh]
    · have kept : (s.pad endTsUs j).outs i = s.outs i ∧ (s.pad endTsUs j).lastTs i = s.lastTs i := by
        unfold Splitter.pad
        split
        · exact ⟨Function.update_of_ne here _ _, Function.update_of_ne here _ _⟩
        · exact ⟨rfl, rfl⟩
      simp [kept, here]

/-! ### Times -/

theorem stoull_lt {text : Bytes} {v : Nat} (read : stoull text = some v) : v < 2 ^ 64 := by
  unfold stoull at read
  dsimp only at read
  split at read
  · cases read
  · split at read
    · cases read
    · next small =>
      obtain rfl := Option.some.inj read
      split
      · exact Nat.mod_lt _ (by decide)
      · exact Nat.lt_of_not_le small

theorem parseLine_tsUs_lt {line : Bytes} {out p : ParsedOp} (accepted : parseLine line out = some p) :
    p.tsUs < 2 ^ 64 := by
  obtain ⟨stamp, -, -, -, -, number⟩ := parseLine_shape accepted
  exact stoull_lt number

theorem endTime_mem {entries : List TraceEntry} (positive : endTime entries ≠ 0) :
    ∃ e ∈ entries, entries.getLast? = some e ∧ e.2.tsUs = endTime entries := by
  unfold endTime at positive ⊢
  cases last : entries.getLast? with
  | none => simp [last] at positive
  | some e => exact ⟨e, List.mem_of_getLast? last, rfl, by simp⟩

/-- In order of time the last entry is the latest. -/
theorem le_endTime {entries : List TraceEntry} (ordered : (entries.map (·.2.tsUs)).Pairwise (· ≤ ·))
    {e : TraceEntry} (member : e ∈ entries) : e.2.tsUs ≤ endTime entries := by
  induction entries using List.reverseRecOn with
  | nil => cases member
  | append_singleton entries last _ =>
    rw [endTime_concat]
    rw [List.map_append, List.map_singleton] at ordered
    rcases List.mem_append.mp member with early | now
    · exact (List.pairwise_append.mp ordered).2.2 _ (List.mem_map_of_mem early) _
        (List.mem_singleton_self _)
    · rw [List.mem_singleton.mp now]

def timeOf (line : Bytes) : Option Nat := (parseLine line {}).map ParsedOp.tsUs

/-- The lines are in order of time and the last one is at `endTsUs`. -/
def EndsAt (endTsUs : Nat) (lines : List Bytes) : Prop :=
  ∃ times : List Nat, lines.map timeOf = times.map some ∧ times.Pairwise (· ≤ ·) ∧
    times.getLast? = some endTsUs

/-- A part of ordered entries, padded if it stops early, ends with them. -/
theorem endsAt_padded {entries own : List TraceEntry} (part : own.Sublist entries)
    (parsed : ∀ e ∈ entries, parseLine e.1 {} = some e.2)
    (ordered : (entries.map (·.2.tsUs)).Pairwise (· ≤ ·)) (positive : endTime entries ≠ 0)
    (i : Fin (n + 1)) :
    EndsAt (endTime entries) (own.map Prod.fst ++
      if endTime own < endTime entries then [Splitter.padLine (endTime entries) i] else []) := by
  have times : (own.map Prod.fst).map timeOf = (own.map (·.2.tsUs)).map some := by
    rw [List.map_map, List.map_map]
    apply List.map_congr_left
    intro e member
    simp [timeOf, parsed e (part.subset member)]
  have sorted : (own.map (·.2.tsUs)).Pairwise (· ≤ ·) := ordered.sublist (part.map _)
  have latest : ∀ e ∈ own, e.2.tsUs ≤ endTime entries :=
    fun e member => le_endTime ordered (part.subset member)
  by_cases early : endTime own < endTime entries
  · obtain ⟨last, member, -, time⟩ := endTime_mem positive
    have small : endTime entries < 2 ^ 64 := time ▸ parseLine_tsUs_lt (parsed last member)
    obtain ⟨p, pad, stamp⟩ := parseLine_padLine small i
    refine ⟨own.map (·.2.tsUs) ++ [endTime entries], ?_, ?_, List.getLast?_concat⟩
    · rw [if_pos early, List.map_append, times, List.map_append, List.map_singleton,
        List.map_singleton, timeOf, pad, Option.map_some, stamp]
    · rw [List.pairwise_append]
      refine ⟨sorted, List.pairwise_singleton _ _, ?_⟩
      intro t early t' end_
      obtain ⟨e, member, rfl⟩ := List.mem_map.mp early
      rw [List.mem_singleton.mp end_]
      exact latest e member
  · obtain ⟨last, member, final, time⟩ := endTime_mem (show endTime own ≠ 0 by omega)
    have reached : endTime own = endTime entries :=
      Nat.le_antisymm (time ▸ latest last member) (Nat.le_of_not_lt early)
    refine ⟨own.map (·.2.tsUs), ?_, sorted, ?_⟩
    · rw [if_neg early, List.append_nil, times]
    · rw [List.getLast?_map, final, Option.map_some, time, reached]

/-! ### The whole program -/

/-- For every dataset, number of nodes, `max_ops` and flag with which the splitter does not
stop with an error: both passes take the selected lines, the files are a fair partition of
them with at most one pad line each, and ordered timestamps make every file ordered and end
at the last selected one. -/
theorem split_fair_partition (dataset : Dataset) (maxOps : Nat) (multinodeWrites : Bool)
    (s : Splitter n) (finished : traceGen dataset maxOps multinodeWrites = some s) :
    let entries := selectedEntries maxOps dataset.lines
    (firstPass maxOps dataset.lines).chosen = entries.map Prod.fst ∧
      (secondPass maxOps multinodeWrites dataset.lines : Splitter n).chosen =
        entries.map Prod.fst ∧
      ∃ log : SplitLog n, log.map Prod.fst = entries ∧ Fair multinodeWrites log ∧
        ∀ i, (∃ pad, (pad = [] ∨ pad = [Splitter.padLine (endTime entries) i]) ∧
            s.outs i = (share log i).map Prod.fst ++ pad) ∧
          ((entries.map (·.2.tsUs)).Pairwise (· ≤ ·) → EndsAt (endTime entries) (s.outs i)) := by
  intro entries
  obtain ⟨log, items, fair, tracks⟩ := secondPass_log (n := n) maxOps multinodeWrites dataset
  have time := firstPass_endTsUs maxOps dataset
  unfold traceGen at finished
  dsimp only at finished
  split at finished
  · cases finished
  · next positive =>
    rw [time] at finished positive
    obtain rfl := Option.some.inj finished
    refine ⟨?_, ?_, log, items, fair, ?_⟩
    · rw [firstPass_eq]
      exact (firstPass_foldl entries {}).1
    · have lines : log.map (·.1.1) = (log.map Prod.fst).map Prod.fst := by
        rw [List.map_map]
        rfl
      rw [tracks.chosen, lines, items]
    · intro i
      have outs := foldl_pad (endTime entries) (List.finRange (n + 1)) (List.nodup_finRange _)
        (secondPass maxOps multinodeWrites dataset.lines) i
      simp only [List.mem_finRange, true_and, tracks.outs, tracks.lastTs] at outs
      rw [outs]
      refine ⟨⟨_, ?_, rfl⟩, fun ordered => ?_⟩
      · split
        · exact Or.inr rfl
        · exact Or.inl rfl
      · exact endsAt_padded (items ▸ share_sublist log i)
          (fun e member => selectedEntries_parsed member) ordered positive i

/-- The lines `5,G a` and `7,P b:c`. -/
def twoLines : Dataset where
  bytes := [53, 44, 71, 32, 97, 10, 55, 44, 80, 32, 98, 58, 99, 10]
  size := by decide

theorem split_of_two_lines :
    ∃ s : Splitter 1, traceGen twoLines 0 true = some s ∧
      let entries := selectedEntries 0 twoLines.lines
      (firstPass 0 twoLines.lines).chosen = entries.map Prod.fst ∧
        (secondPass 0 true twoLines.lines : Splitter 1).chosen = entries.map Prod.fst ∧
        ∃ log : SplitLog 1, log.map Prod.fst = entries ∧ Fair true log ∧
          ∀ i, (∃ pad, (pad = [] ∨ pad = [Splitter.padLine (endTime entries) i]) ∧
              s.outs i = (share log i).map Prod.fst ++ pad) ∧
            ((entries.map (·.2.tsUs)).Pairwise (· ≤ ·) → EndsAt (endTime entries) (s.outs i)) :=
  ⟨_, rfl, split_fair_partition twoLines 0 true _ rfl⟩

end BandleCxl.Guarantees
