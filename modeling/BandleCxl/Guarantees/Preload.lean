import BandleCxl.Guarantees.StatsPipeline
import BandleCxl.Guarantees.StoreRefinement
import BandleCxl.Guarantees.WritePath
import BandleCxl.Source.Preload

/-!
The preload reads its file with `getline` and the replay scans a mapped one with `memchr`. Both
see the same lines, so the preload writes what the first writes of the replay would write, and
every node that preloads the same file starts from the same map.
-/
namespace BandleCxl.Guarantees
open Library Source Bandle

/-! ### Lines -/

/-- Text without a newline is one line, unless it is empty. -/
theorem linesOf_last {line : Bytes} (nonempty : line ≠ []) (whole : 10 ∉ line) :
    linesOf line = [line] := by
  induction line with
  | nil => exact absurd rfl nonempty
  | cons b rest ih =>
    obtain ⟨inside, later⟩ := not_or.mp (List.mem_cons.not.mp whole)
    rw [linesOf, if_neg (Ne.symm inside)]
    cases rest with
    | nil => rfl
    | cons c rest => rw [ih (List.cons_ne_nil _ _) later]

theorem linesOf_line {line : Bytes} (whole : 10 ∉ line) (rest : Bytes) :
    linesOf (line ++ 10 :: rest) = line :: linesOf rest := linesOf_append_newline whole rest

/-- The writes of a file, as far as they are preloaded. -/
def firstWrites (count : Nat) (lines : List Bytes) : List ParsedLineView :=
  ((lines.filterMap parseLineView).filter fun v => isWriteOp v.op).take count

variable {hash : Bytes → Nat} {count loaded : Nat} {kv : KVStore}

def applyOwned (hash : Bytes → Nat) (kv : KVStore) (v : ParsedLineView) : KVStore :=
  directApply hash kv v.owned

/-- One line of the loop. -/
theorem preloadLoop_line (hash : Bytes → Nat) (kv : KVStore) (lines : List Bytes) {ss : TextStream}
    {line : Bytes} (room : loaded < count) (ok : (ss.getline line 10).2.failbit = false)
    (rest : ∀ loaded kv,
      preloadLoop hash count (ss.getline line 10).2 (ss.getline line 10).1 loaded kv =
        ((firstWrites (count - loaded) lines).foldl (applyOwned hash) kv,
          loaded + (firstWrites (count - loaded) lines).length)) :
    preloadLoop hash count ss line loaded kv =
      ((firstWrites (count - loaded) ((ss.getline line 10).1 :: lines)).foldl (applyOwned hash) kv,
        loaded + (firstWrites (count - loaded) ((ss.getline line 10).1 :: lines)).length) := by
  rw [preloadLoop, if_pos room]
  dsimp only
  rw [dif_pos ok]
  cases parsed : parseLineView (ss.getline line 10).1 with
  | none =>
    dsimp only
    rw [rest, firstWrites, firstWrites, List.filterMap_cons_none parsed]
  | some v =>
    dsimp only
    by_cases write : isWriteOp v.op = true
    · have more : count - loaded = count - (loaded + 1) + 1 := by omega
      have first : firstWrites (count - loaded) ((ss.getline line 10).1 :: lines) =
          v :: firstWrites (count - (loaded + 1)) lines := by
        rw [firstWrites, List.filterMap_cons_some parsed, List.filter_cons, if_pos write, more]
        rfl
      rw [if_pos write, rest, first, List.foldl_cons, List.length_cons, Nat.add_assoc,
        Nat.add_comm 1]
      rfl
    · have same : firstWrites (count - loaded) ((ss.getline line 10).1 :: lines) =
          firstWrites (count - loaded) lines := by
        rw [firstWrites, List.filterMap_cons_some parsed, List.filter_cons, if_neg write]
        rfl
      rw [if_neg write, rest, same]

theorem preloadLoop_full {ss : TextStream} {line : Bytes} (full : ¬loaded < count) :
    preloadLoop hash count ss line loaded kv = (kv, loaded) := by
  rw [preloadLoop, if_neg full]

theorem preloadLoop_failed {ss : TextStream} {line : Bytes}
    (failed : (ss.getline line 10).2.failbit = true) :
    preloadLoop hash count ss line loaded kv = (kv, loaded) := by
  rw [preloadLoop]
  split
  · dsimp only
    rw [dif_neg (by simp [failed])]
  · rfl

/-- `getline` goes over the stretches between newlines. -/
theorem preloadLoop_eq (hash : Bytes → Nat) (count : Nat) (text line : Bytes) (loaded : Nat)
    (kv : KVStore) :
    preloadLoop hash count { rest := text } line loaded kv =
      ((firstWrites (count - loaded) (linesOf text)).foldl (applyOwned hash) kv,
        loaded + (firstWrites (count - loaded) (linesOf text)).length) := by
  induction size : text.length using Nat.strong_induction_on generalizing text line loaded kv with
  | _ n ih =>
    subst size
    by_cases room : loaded < count
    · cases found : text.idxOf? 10 with
      | some i =>
        obtain ⟨first, rest, rfl, absent, -⟩ := exists_split_of_idxOf? found
        have got := TextStream.getline_delim absent rest line
        rw [linesOf_line absent]
        have step := preloadLoop_line hash kv (linesOf rest) room (by
          rw [got]) (by
            intro loaded kv
            rw [got]
            exact ih rest.length (by simp; omega) rest first loaded kv rfl)
        rwa [got] at step
      | none =>
        have absent := List.idxOf?_eq_none_iff.mp found
        by_cases empty : text = []
        · subst empty
          rw [preloadLoop_failed rfl]
          simp [linesOf, firstWrites]
        · have got := TextStream.getline_last absent empty line
          rw [linesOf_last empty absent]
          have step := preloadLoop_line hash kv [] room (by
            rw [got]) (by
              intro loaded kv
              rw [got, preloadLoop_failed rfl]
              simp [firstWrites])
          rwa [got] at step
    · rw [preloadLoop_full room, Nat.sub_eq_zero_of_le (Nat.not_lt.mp room)]
      simp [firstWrites]

theorem preload_eq (hash : Bytes → Nat) (count : Nat) (file : Option Bytes) (kv : KVStore) :
    preload hash count file kv =
      ((firstWrites count (linesOf (file.getD []))).foldl (applyOwned hash) kv,
        (firstWrites count (linesOf (file.getD []))).length) := by
  unfold preload
  split
  · cases file with
    | none =>
      have failed : ((ifstream none).getline [] 10).2.failbit = true := rfl
      rw [preloadLoop_failed failed]
      simp [firstWrites, linesOf]
    | some contents =>
      have whole := preloadLoop_eq hash count contents [] 0 kv
      rwa [Nat.zero_add] at whole
  · next zero =>
    rw [Nat.eq_zero_of_not_pos zero]
    simp [firstWrites]

/-! ### Requests -/

theorem load_ofBytes {bytes : Bytes} {len : Nat} (inside : len ≤ bytes.length) :
    (Mem.ofBytes bytes).load 0 len = bytes.take len := by
  apply List.ext_getElem
  · simp [inside]
  · intro i below below'
    have lt : i < bytes.length := by
      rw [List.length_take] at below'
      omega
    simp [Mem.load, Mem.ofBytes, List.getElem?_eq_getElem lt]

/-- The lengths of an accepted line stay inside it. -/
theorem parseLineView_inside {data : Bytes} {v : ParsedLineView}
    (accepted : parseLineView data = some v) :
    v.keyLen ≤ v.keyPtr.length ∧ (∀ value ∈ v.valuePtr, v.valueLen ≤ value.length) ∧
      (v.valuePtr = none → v.valueLen = 0) := by
  unfold parseLineView at accepted
  split at accepted
  · cases accepted
  · dsimp only at accepted
    split at accepted
    · cases accepted
    · split at accepted
      · cases accepted
      · split at accepted
        · cases accepted
        · split at accepted
          · cases accepted
          · split at accepted
            · cases accepted
            · obtain rfl := Option.some.inj accepted
              refine ⟨?_, ?_, ?_⟩
              · dsimp only
                refine Nat.le_trans (Nat.mod_le _ _) ?_
                generalize List.drop _ _ = key
                cases found : key.idxOf? 58 with
                | none => exact Nat.le_refl _
                | some colon =>
                  have inside := (List.idxOf?_eq_some_iff.mp found).1
                  exact Nat.le_of_lt inside
              · intro value present
                dsimp only at present ⊢
                rw [Option.mem_def.mp present]
                exact Nat.mod_le _ _
              · intro absent
                dsimp only at absent ⊢
                rw [absent]
                rfl

/-- A line is preloaded as the request that its replay submits. -/
theorem owned_eq {data : Bytes} {v : ParsedLineView} (accepted : parseLineView data = some v) :
    v.owned = ownedRequest v.request := by
  obtain ⟨key, value, null⟩ := parseLineView_inside accepted
  unfold ParsedLineView.owned ownedRequest ParsedLineView.request
  congr 1
  · exact (load_ofBytes key).symm
  · cases pointer : v.valuePtr with
    | none => simp [null pointer, Mem.load]
    | some bytes =>
      have inside := value bytes pointer
      simp only [Option.map_some, Option.getD_some]
      rw [load_ofBytes inside]
      split
      · rfl
      · next zero => rw [not_not.mp zero, List.take_zero]

theorem represents_foldl {m : PlainMap} (represents : Represents hash kv m)
    (views : List ParsedLineView) :
    Represents hash (views.foldl (applyOwned hash) kv)
      (views.foldl (fun m v => writeOnMap m v.owned) m) := by
  induction views generalizing kv m with
  | nil => exact represents
  | cons v rest ih => exact ih (represents.directApply v.owned)

/-- For every file, or none: the preload performs the first `preload_count` writes among the
requests that a replay of this file would submit, with their full values, and counts them; the
store then stands for the map after these writes, whatever the hash is. -/
theorem preload_first_writes (hash : Bytes → Nat) (count : Nat) (file : Option Bytes) :
    let writes := (((acceptedLines (file.getD [])).map fun v => ownedRequest v.request).filter
      fun q => isWriteOp q.op).take count
    (preload hash count file .empty).2 = writes.length ∧
      (preload hash count file .empty).1 = writes.foldl (directApply hash) .empty ∧
      Represents hash (preload hash count file .empty).1 (writes.foldl writeOnMap ∅) := by
  intro writes
  have requests : writes = (firstWrites count (linesOf (file.getD []))).map ParsedLineView.owned := by
    have each : (acceptedLines (file.getD [])).map (fun v => ownedRequest v.request) =
        (acceptedLines (file.getD [])).map ParsedLineView.owned := by
      refine List.map_congr_left fun v member => ?_
      obtain ⟨line, -, accepted⟩ := List.mem_filterMap.mp member
      exact (owned_eq accepted).symm
    show (List.filter _ _).take count = _
    rw [each, List.filter_map, ← List.map_take]
    rfl
  rw [preload_eq, requests, List.length_map, List.foldl_map]
  refine ⟨rfl, rfl, ?_⟩
  rw [List.foldl_map]
  exact represents_foldl (represents_empty hash) _

end BandleCxl.Guarantees
