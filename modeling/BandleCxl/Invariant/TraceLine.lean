import BandleCxl.Library.Text
import BandleCxl.Source.TraceGen

/-!
The two trace parsers on one line. Both cut it at its first comma, drop the line end
and expect an operation byte and a space; from there on each goes its own way. The
lemmas below reduce either parser to that point, so that they can be compared part by
part.
-/
namespace BandleCxl.Invariant
open Library Source

/-! ### Numbers -/

theorem parseU64Loop_digits {text : Bytes} {v : Nat} (digits : ∀ b ∈ text, isDigit b = true)
    (small : readDigits v text < 2 ^ 64) : parseU64Loop v text = some (readDigits v text) := by
  induction text generalizing v with
  | nil => rfl
  | cons b rest ih =>
    obtain ⟨lo, hi⟩ := isDigit_iff.mp (digits b (by simp))
    have digit : ¬ (b < 48 ∨ b > 57) := by
      simp only [gt_iff_lt, UInt8.lt_iff_toNat_lt, UInt8.reduceToNat]
      omega
    have value : (b - 48).toNat = digitValue b := by
      rw [UInt8.toNat_sub_of_le _ _ (by simpa [UInt8.le_iff_toNat_le] using lo)]
      rfl
    rw [readDigits_cons] at small ⊢
    -- no step wraps, since the value only grows
    have grows := le_readDigits (v * 10 + digitValue b) rest
    have step : add64 (mul64 v 10) (b - 48).toNat = v * 10 + digitValue b := by
      rw [value, add64, mul64, Nat.mod_eq_of_lt (show v * 10 < 2 ^ 64 by omega),
        Nat.mod_eq_of_lt (by omega)]
    rw [parseU64Loop, if_neg digit, step]
    exact ih (fun b' member => digits b' (by simp [member])) small

theorem parseU64_digits {text : Bytes} (digits : ∀ b ∈ text, isDigit b = true)
    (nonempty : text ≠ []) (small : readDigits 0 text < 2 ^ 64) :
    parseU64 text = some (readDigits 0 text) := by
  rw [parseU64, if_neg (by simpa using nonempty)]
  exact parseU64Loop_digits digits small

theorem parseU64Loop_rejects {text : Bytes} {v w : Nat} (accepted : parseU64Loop v text = some w) :
    ∀ b ∈ text, isDigit b = true := by
  induction text generalizing v with
  | nil => simp
  | cons b rest ih =>
    rw [parseU64Loop] at accepted
    split at accepted
    · cases accepted
    · next digit =>
      intro b' member
      rcases List.mem_cons.mp member with first | later
      · subst b'
        simp only [gt_iff_lt, UInt8.lt_iff_toNat_lt, UInt8.reduceToNat] at digit
        exact isDigit_iff.mpr (by omega)
      · exact ih accepted b' later

theorem parseU64_rejects {text : Bytes} {w : Nat} (accepted : parseU64 text = some w) :
    ∀ b ∈ text, isDigit b = true := by
  unfold parseU64 at accepted
  split at accepted
  · cases accepted
  · exact parseU64Loop_rejects accepted

/-! ### Lines -/

/-- Nothing but a line end is dropped. -/
theorem dropLineEnd_append {text lineEnd : Bytes} (kept : ∀ b ∈ text, b ≠ 10 ∧ b ≠ 13)
    (dropped : ∀ b ∈ lineEnd, b = 10 ∨ b = 13) : dropLineEnd (text ++ lineEnd) = text := by
  unfold dropLineEnd
  have ends : ∀ b ∈ lineEnd.reverse, (b == 10 || b == 13) = true := by
    intro b member
    simpa using dropped b (List.mem_reverse.mp member)
  rw [List.reverse_append, List.dropWhile_append_of_pos ends]
  have stays : text.reverse.dropWhile (fun b => b == 10 || b == 13) = text.reverse := by
    cases last : text.reverse with
    | nil => rfl
    | cons b rest =>
      have member : b ∈ text := List.mem_reverse.mp (by simp [last])
      obtain ⟨newline, carriage⟩ := kept b member
      exact List.dropWhile_cons_of_neg (by simp [newline, carriage])
  rw [stays, List.reverse_reverse]

theorem decimal_shape (ts : Nat) :
    (∀ b ∈ decimal ts, b < 128) ∧ 44 ∉ decimal ts ∧ ∀ tail, (decimal ts ++ tail).head? ≠ some 35 := by
  refine ⟨?_, not_mem_decimal (by decide) ts, ?_⟩
  · intro b member
    have digit := decimal_range ts b member
    rw [UInt8.lt_iff_toNat_lt]
    simp only [UInt8.reduceToNat]
    omega
  · intro tail start
    obtain ⟨b, rest, eq⟩ := List.exists_cons_of_ne_nil (decimal_ne_nil ts)
    rw [eq] at start
    have hash : b = 35 := by simpa using start
    subst hash
    exact not_mem_decimal (by decide) ts (eq ▸ List.mem_cons_self)

/-- The line is `<stamp>,<op> <rest>` up to its line end. -/
structure Shaped (line stamp : Bytes) (op : UInt8) (rest : Bytes) : Prop where
  comment : line.head? ≠ some 35
  noComma : 44 ∉ stamp
  split : ∃ tail, line = stamp ++ 44 :: tail ∧ dropLineEnd tail = op :: 32 :: rest

theorem Shaped.not_skipped {line stamp rest : Bytes} {op : UInt8} (h : Shaped line stamp op rest) :
    ¬ (line.isEmpty || line.head? == some 35) = true := by
  obtain ⟨tail, eq, -⟩ := h.split
  have some : line ≠ [] := by simp [eq]
  have comment := h.comment
  simp [some, comment]

theorem parseLine_shaped {line stamp rest : Bytes} {op : UInt8} (h : Shaped line stamp op rest)
    (nonempty : rest ≠ []) (out : ParsedOp) :
    parseLine line out =
      match splitRequest op rest out.value with
      | none => none
      | some (key, value) =>
        (stoull stamp).map fun ts => { tsUs := ts, op := op, key := key, value := value } := by
  obtain ⟨tail, eq, ending⟩ := h.split
  have length := List.length_pos_iff.mpr nonempty
  unfold parseLine
  rw [if_neg h.not_skipped]
  have comma : line.idxOf? 44 = some stamp.length := by rw [eq, idxOf?_append_cons h.noComma]
  have before : line.take stamp.length = stamp := by simp [eq]
  have after : line.drop (stamp.length + 1) = tail := by simp [eq]
  rw [comma]
  dsimp only
  rw [before, after, ending, if_neg (by simp; omega)]
  rfl

/-- What the replayer makes of the text after the operation. -/
def viewOf (ts : Nat) (op : UInt8) (rest : Bytes) : Option ParsedLineView :=
  let value := (rest.idxOf? 58).map fun colon => rest.drop (colon + 1)
  let colon := (rest.idxOf? 58).getD rest.length
  if colon = 0 then none
  else
    some {
      tsUs := ts
      op := op
      keyPtr := rest
      keyLen := colon % 2 ^ 32
      valuePtr := value
      valueLen := (value.getD []).length % 2 ^ 32 }

theorem parseLineView_shaped {line stamp rest : Bytes} {op : UInt8}
    (h : Shaped line stamp op rest) :
    parseLineView line = (parseU64 stamp).bind fun ts => viewOf ts op rest := by
  obtain ⟨tail, eq, ending⟩ := h.split
  have trimmed : dropLineEnd line = stamp ++ 44 :: op :: 32 :: rest := by
    rw [eq, dropLineEnd, reverse_dropWhile_append_cons _ _ (by decide)]
    rw [dropLineEnd] at ending
    rw [ending]
  unfold parseLineView
  rw [if_neg h.not_skipped, trimmed]
  have comma : (stamp ++ 44 :: op :: 32 :: rest).idxOf? 44 = some stamp.length :=
    idxOf?_append_cons h.noComma
  have before : (stamp ++ 44 :: op :: 32 :: rest).take stamp.length = stamp := by simp
  have opAt : (stamp ++ 44 :: op :: 32 :: rest).getD (stamp.length + 1) 0 = op := by simp
  have space : (stamp ++ 44 :: op :: 32 :: rest).getD (stamp.length + 2) 0 = 32 := by simp
  have key : (stamp ++ 44 :: op :: 32 :: rest).drop (stamp.length + 3) = rest := by simp
  dsimp only
  rw [comma]
  dsimp only
  rw [if_neg (by simp), before, opAt, space, key]
  cases parseU64 stamp with
  | none => rfl
  | some ts =>
    simp only [ne_eq, not_true_eq_false, if_false, Option.bind_some]
    rfl

/-- What `parse_line` accepts, and the parts it has read. -/
theorem parseLine_shape {line : Bytes} {out p : ParsedOp} (accepted : parseLine line out = some p) :
    ∃ stamp rest, Shaped line stamp p.op rest ∧ rest ≠ [] ∧
      splitRequest p.op rest out.value = some (p.key, p.value) ∧ stoull stamp = some p.tsUs := by
  unfold parseLine at accepted
  split at accepted
  · cases accepted
  · next kept =>
    split at accepted
    · cases accepted
    · next comma found =>
      dsimp only at accepted
      split at accepted
      · cases accepted
      · next formed =>
        obtain ⟨stamp, tail, eq, absent, length⟩ := exists_split_of_idxOf? found
        have before : line.take comma = stamp := by simp [eq, ← length]
        have after : line.drop (comma + 1) = tail := by simp [eq, ← length]
        rw [before, after] at accepted
        rw [after] at formed
        obtain ⟨long, space⟩ := not_or.mp formed
        match ending : dropLineEnd tail with
        | [] | [_] | [_, _] => simp [ending] at long
        | op :: blank :: b :: rest =>
          rw [ending] at accepted space
          have blank32 : blank = 32 := by simpa using space
          subst blank32
          simp only [List.getD_cons_zero, List.drop_succ_cons, List.drop_zero] at accepted
          split at accepted
          · cases accepted
          · next key value parts =>
            obtain ⟨ts, number, result⟩ := Option.map_eq_some_iff.mp accepted
            subst p
            refine ⟨stamp, b :: rest, ⟨?_, absent, tail, eq, ending⟩, by simp, parts, number⟩
            intro hash
            exact kept (by simp [hash])

/-! ### Key and value -/

/-- A length cut to 32 bits gives the text back exactly if it is short. -/
theorem take_cut_iff (text more : Bytes) :
    (text ++ more).take (text.length % 2 ^ 32) = text ↔ text.length < 2 ^ 32 := by
  constructor
  · intro same
    have length := congrArg List.length same
    rw [List.length_take] at length
    have bound := Nat.mod_lt text.length (show 0 < 2 ^ 32 by decide)
    omega
  · intro short
    rw [Nat.mod_eq_of_lt short, List.take_left]

theorem viewOf_colon (ts : Nat) (op : UInt8) {key : Bytes} (value : Bytes) (absent : 58 ∉ key) :
    viewOf ts op (key ++ 58 :: value) =
      if key.length = 0 then none
      else
        some {
          tsUs := ts
          op := op
          keyPtr := key ++ 58 :: value
          keyLen := key.length % 2 ^ 32
          valuePtr := some value
          valueLen := value.length % 2 ^ 32 } := by
  have after : (key ++ 58 :: value).drop (key.length + 1) = value := by simp
  unfold viewOf
  rw [idxOf?_append_cons absent]
  simp only [Option.map_some, Option.getD_some, after]

theorem viewOf_plain (ts : Nat) (op : UInt8) {rest : Bytes} (absent : 58 ∉ rest)
    (nonempty : rest ≠ []) :
    viewOf ts op rest =
      some {
        tsUs := ts
        op := op
        keyPtr := rest
        keyLen := rest.length % 2 ^ 32
        valuePtr := none
        valueLen := 0 } := by
  have length : ¬ rest.length = 0 := by simpa using nonempty
  unfold viewOf
  rw [List.idxOf?_eq_none_iff.mpr absent]
  simp only [Option.map_none, Option.getD_none, length, if_false, List.length_nil, Nat.zero_mod]

end BandleCxl.Invariant
