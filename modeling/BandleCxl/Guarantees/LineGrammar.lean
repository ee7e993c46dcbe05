import BandleCxl.Invariant.TraceLine
import BandleCxl.Source.LineScan

/-!
What `parse_line_view` accepts. The pointer code reads only bytes of the line and computes
what the parser on lists computes; that one accepts exactly a grammar and returns its parts.
-/
namespace BandleCxl.Guarantees
open Library Source Invariant

/-! ### Scans -/

theorem drop_take_succ {w : Bytes} {p n : Nat} (inside : p + (n + 1) ≤ w.length) :
    ∃ b, w[p]? = some b ∧ (w.drop p).take (n + 1) = b :: (w.drop (p + 1)).take n := by
  refine ⟨w[p], List.getElem?_eq_getElem (by omega), ?_⟩
  rw [List.drop_eq_getElem_cons (by omega), List.take_succ_cons]

theorem memchr_eq (w : Bytes) (c : UInt8) {p n : Nat} (inside : p + n ≤ w.length) :
    memchr w c p n = some ((((w.drop p).take n).idxOf? c).map (p + ·)) := by
  induction n generalizing p with
  | zero => rfl
  | succ n ih =>
    obtain ⟨b, read, split⟩ := drop_take_succ inside
    rw [memchr, read, split, List.idxOf?_cons, Option.bind_eq_bind, Option.bind_some]
    by_cases here : b = c
    · simp [here]
    · rw [if_neg here, ih (by omega), if_neg (by simpa using here), Option.map_map]
      congr 2
      funext i
      simp only [Function.comp_apply]
      omega

theorem parseU64Scan_eq (w : Bytes) {p n : Nat} (v : Nat) (inside : p + n ≤ w.length) :
    parseU64Scan w p n v = some (parseU64Loop v ((w.drop p).take n)) := by
  induction n generalizing p v with
  | zero => rfl
  | succ n ih =>
    obtain ⟨b, read, split⟩ := drop_take_succ inside
    rw [parseU64Scan, read, split, parseU64Loop, Option.bind_eq_bind, Option.bind_some]
    split
    · rfl
    · exact ih _ (by omega)

theorem parseU64At_eq (w : Bytes) {stop : Nat} (inside : stop ≤ w.length) :
    parseU64At w 0 stop = some (parseU64 (w.take stop)) := by
  rw [parseU64At, parseU64]
  by_cases empty : stop = 0
  · subst empty
    simp
  · have some : (w.take stop).isEmpty = false := by
      rw [List.isEmpty_eq_false_iff, ne_eq, List.take_eq_nil_iff]
      have : w ≠ [] := by
        rintro rfl
        exact empty (Nat.le_zero.mp inside)
      simp [empty, this]
    rw [if_neg (by omega), parseU64Scan_eq w 0 (by omega), some, if_neg (by decide)]
    rfl

theorem dropLineEnd_concat (text : Bytes) (b : UInt8) :
    dropLineEnd (text ++ [b]) = if b = 10 ∨ b = 13 then dropLineEnd text else text ++ [b] := by
  unfold dropLineEnd
  rw [List.reverse_append, List.reverse_singleton, List.singleton_append, List.dropWhile_cons]
  by_cases ends : b = 10 ∨ b = 13
  · rw [if_pos ends, if_pos (by simpa using ends)]
  · rw [if_neg ends, if_neg (by simpa using ends), List.reverse_cons, List.reverse_reverse]

theorem stripLineEnd_eq (w : Bytes) {len : Nat} (inside : len ≤ w.length) :
    stripLineEnd w len = some (dropLineEnd (w.take len)).length := by
  induction len with
  | zero => rfl
  | succ len ih =>
    have read : w[len]? = some w[len] := List.getElem?_eq_getElem (by omega)
    rw [stripLineEnd, read, Option.bind_eq_bind, Option.bind_some, List.take_succ_eq_append_getElem
      (by omega), dropLineEnd_concat]
    split
    · exact ih (by omega)
    · rw [List.length_append, List.length_take_of_le (by omega)]
      rfl

theorem dropLineEnd_splits (w : Bytes) : dropLineEnd w <+: w := by
  unfold dropLineEnd
  have suffix := List.dropWhile_suffix (fun b : UInt8 => b == 10 || b == 13) (l := w.reverse)
  have flipped := List.reverse_prefix.mpr suffix
  rwa [List.reverse_reverse] at flipped

/-! ### The pointer code is the parser on lists -/

/-- A pointer into a text that ends at `stop`, as an offset. -/
def LineView.ofView (stop : Nat) (v : ParsedLineView) : LineView where
  tsUs := v.tsUs
  op := v.op
  keyPtr := stop - v.keyPtr.length
  keyLen := v.keyLen
  valuePtr := v.valuePtr.map fun text => stop - text.length
  valueLen := v.valueLen

theorem parseKeyAt_eq {w : Bytes} (ts : Nat) (op : UInt8) {key stop : Nat} (start : key ≤ stop)
    (inside : stop ≤ w.length) :
    parseKeyAt w ts op key stop =
      some ((viewOf ts op ((w.take stop).drop key)).map (LineView.ofView stop)) := by
  have part : (w.drop key).take (stop - key) = (w.take stop).drop key := by rw [List.drop_take]
  have length : ((w.take stop).drop key).length = stop - key := by
    rw [List.length_drop, List.length_take_of_le inside]
  rw [parseKeyAt, memchr_eq w 58 (by omega), part]
  generalize (w.take stop).drop key = rest at length ⊢
  unfold viewOf
  cases found : rest.idxOf? 58 with
  | none =>
    simp only [Option.map_none, Option.getD_none, Option.bind_eq_bind, Option.bind_some, length]
    by_cases empty : key ≥ stop
    · rw [if_pos empty, if_pos (by omega)]
      rfl
    · rw [if_neg empty, if_neg (by omega), Option.map_some]
      simp only [LineView.ofView, length, Option.map_none, List.length_nil, Nat.zero_mod]
      congr 3
      omega
  | some i =>
    obtain ⟨before, after, eq, -, size⟩ := exists_split_of_idxOf? found
    have room : i + 1 ≤ stop - key := by
      rw [← length, eq, List.length_append, List.length_cons]
      omega
    simp only [Option.map_some, Option.getD_some, Option.bind_eq_bind, Option.bind_some]
    by_cases empty : i = 0
    · rw [if_pos (by omega), if_pos empty]
      rfl
    · rw [if_neg (by omega), if_neg empty, Option.map_some]
      have key_eq : stop - (stop - key) = key := by omega
      have cut : key + i - key = i := by omega
      have value_eq : stop - (stop - (key + i + 1)) = key + i + 1 := by omega
      have rest_eq : stop - key - (i + 1) = stop - (key + i + 1) := by omega
      simp only [LineView.ofView, List.length_drop, length, Option.map_some, key_eq, cut, value_eq,
        rest_eq]

theorem parseLineViewAt_eq (w : Bytes) :
    parseLineViewAt w = some ((parseLineView w).map (LineView.ofView (dropLineEnd w).length)) := by
  cases w with
  | nil => rfl
  | cons first rest =>
    have inside : (dropLineEnd (first :: rest)).length ≤ (first :: rest).length :=
      (dropLineEnd_splits _).length_le
    have line : (first :: rest).take (dropLineEnd (first :: rest)).length =
        dropLineEnd (first :: rest) := (List.prefix_iff_eq_take.mp (dropLineEnd_splits _)).symm
    have strip := stripLineEnd_eq (first :: rest) (Nat.le_refl _)
    rw [List.take_length] at strip
    unfold parseLineViewAt parseLineView
    rw [if_neg (by simp), List.getElem?_cons_zero, Option.bind_eq_bind, Option.bind_some, strip]
    generalize dropLineEnd (first :: rest) = text at inside line ⊢
    by_cases comment : first = 35
    · rw [if_pos comment, if_pos (by simp [comment])]
      rfl
    · have stamp : ∀ c ≤ text.length, (first :: rest).take c = text.take c := by
        intro c short
        rw [← line, List.take_take, Nat.min_eq_left short]
      have byte : ∀ j < text.length, (first :: rest)[j]? = some (text.getD j 0) := by
        intro j short
        rw [List.getD_eq_getElem?_getD, ← line, List.getElem?_take, if_pos short,
          List.getElem?_eq_getElem (by omega), Option.getD_some]
      rw [if_neg comment, if_neg (by simp [comment])]
      simp only [Option.bind_eq_bind, Option.bind_some, memchr_eq (first :: rest) 44
        (show 0 + text.length ≤ (first :: rest).length by omega), List.drop_zero, line]
      cases comma : text.idxOf? 44 with
      | none => rfl
      | some c =>
        simp only [Option.map_some, Nat.zero_add]
        by_cases short : c + 3 > text.length
        · rw [if_pos short, if_pos short]
          rfl
        · rw [if_neg short, if_neg short, parseU64At_eq _ (by omega), stamp c (by omega),
            Option.bind_some]
          cases parseU64 (text.take c) with
          | none => rfl
          | some ts =>
            simp only [byte (c + 1) (by omega), byte (c + 2) (by omega), Option.bind_some]
            by_cases space : text.getD (c + 2) 0 ≠ 32
            · rw [if_pos space, if_pos space]
              rfl
            · rw [if_neg space, if_neg space, parseKeyAt_eq ts _ (by omega) inside, line]
              rfl

/-! ### The grammar -/

/-- What follows the key. -/
def valueText : Option Bytes → Bytes
  | none => []
  | some value => 58 :: value

/-- The line is `d "," op " " key` or `d "," op " " key ":" value` up to its line end. -/
structure LineForm (w d : Bytes) (op : UInt8) (key : Bytes) (value : Option Bytes) : Prop where
  nonempty : w ≠ []
  comment : w.head? ≠ some 35
  text : dropLineEnd w = d ++ 44 :: op :: 32 :: (key ++ valueText value)
  number : d ≠ []
  digits : ∀ b ∈ d, isDigit b = true
  named : key ≠ []
  plain : 58 ∉ key

theorem comma_not_mem {d : Bytes} (digits : ∀ b ∈ d, isDigit b = true) : 44 ∉ d :=
  fun member => absurd (digits 44 member) (by decide)

theorem LineForm.shaped {w d key : Bytes} {op : UInt8} {value : Option Bytes}
    (form : LineForm w d op key value) : Shaped w d op (key ++ valueText value) := by
  obtain ⟨ends, whole⟩ := dropLineEnd_splits w
  have split : w = d ++ 44 :: (op :: 32 :: (key ++ valueText value) ++ ends) := by
    rw [← whole, form.text]
    simp
  refine ⟨form.comment, comma_not_mem form.digits, _, split, ?_⟩
  have text := form.text
  rw [split, dropLineEnd, reverse_dropWhile_append_cons _ _ (by decide)] at text
  exact (List.cons.inj (List.append_cancel_left text)).2

/-- Every non-empty string of digits is a number, if perhaps a wrapped one. -/
theorem parseU64Loop_some {text : Bytes} (digits : ∀ b ∈ text, isDigit b = true) (v : Nat) :
    ∃ ts, parseU64Loop v text = some ts := by
  induction text generalizing v with
  | nil => exact ⟨v, rfl⟩
  | cons b rest ih =>
    obtain ⟨lo, hi⟩ := isDigit_iff.mp (digits b (by simp))
    have digit : ¬(b < 48 ∨ b > 57) := by
      simp only [gt_iff_lt, UInt8.lt_iff_toNat_lt, UInt8.reduceToNat]
      omega
    rw [parseU64Loop, if_neg digit]
    exact ih (fun b' member => digits b' (by simp [member])) _

/-- The view of an accepted line. -/
theorem LineForm.view {w d key : Bytes} {op : UInt8} {value : Option Bytes}
    (form : LineForm w d op key value) :
    ∃ ts, (readDigits 0 d < 2 ^ 64 → ts = readDigits 0 d) ∧
      parseLineView w = some {
        tsUs := ts
        op := op
        keyPtr := key ++ valueText value
        keyLen := key.length % 2 ^ 32
        valuePtr := value
        valueLen := (value.getD []).length % 2 ^ 32 } := by
  obtain ⟨ts, read⟩ := parseU64Loop_some form.digits 0
  have number : parseU64 d = some ts := by
    rw [parseU64, if_neg (by simpa using form.number), read]
  refine ⟨ts, fun small => ?_, ?_⟩
  · have exact_ := parseU64_digits form.digits form.number small
    exact Option.some.inj (number.symm.trans exact_)
  · rw [parseLineView_shaped form.shaped, number, Option.bind_some]
    cases value with
    | none =>
      rw [valueText, List.append_nil, viewOf_plain ts op form.plain form.named]
      rfl
    | some value =>
      rw [valueText, viewOf_colon ts op value form.plain, if_neg (by simpa using form.named)]
      rfl

/-- Key and value of a text from which a view is made. -/
theorem exists_key_of_viewOf {ts : Nat} {op : UInt8} {rest : Bytes} {v : ParsedLineView}
    (made : viewOf ts op rest = some v) :
    ∃ key value, rest = key ++ valueText value ∧ key ≠ [] ∧ 58 ∉ key := by
  unfold viewOf at made
  dsimp only at made
  split at made
  · cases made
  · next named =>
    cases found : rest.idxOf? 58 with
    | none =>
      rw [found, Option.getD_none] at named
      exact ⟨rest, none, (List.append_nil rest).symm, by simpa using named,
        List.idxOf?_eq_none_iff.mp found⟩
    | some i =>
      obtain ⟨key, value, eq, plain, size⟩ := exists_split_of_idxOf? found
      rw [found, Option.getD_some, ← size] at named
      exact ⟨key, some value, eq, by simpa using named, plain⟩

/-- Nothing else is accepted. -/
theorem exists_lineForm {w : Bytes} {v : ParsedLineView} (accepted : parseLineView w = some v) :
    ∃ d op key value, LineForm w d op key value := by
  unfold parseLineView at accepted
  split at accepted
  · cases accepted
  · next kept =>
    simp only [Bool.or_eq_true, not_or] at kept
    dsimp only at accepted
    split at accepted
    · cases accepted
    · next comma found =>
      split at accepted
      · cases accepted
      · next long =>
        split at accepted
        · cases accepted
        · next ts number =>
          split at accepted
          · cases accepted
          · next space =>
            obtain ⟨d, tail, text, -, size⟩ := exists_split_of_idxOf? found
            subst size
            match tail with
            | [] | [_] => simp [text] at long
            | op :: blank :: rest =>
              have blank32 : blank = 32 := by simpa [text] using space
              have made : viewOf ts op rest = some v := by
                simpa [text, viewOf] using accepted
              have stamp : (dropLineEnd w).take d.length = d := by simp [text]
              rw [stamp] at number
              obtain ⟨key, value, eq, named, plain⟩ := exists_key_of_viewOf made
              refine ⟨d, op, key, value, by simpa using kept.1, by simpa using kept.2, ?_, ?_,
                parseU64_rejects number, named, plain⟩
              · rw [text, blank32, eq]
              · rintro rfl
                cases number

/-- The end of the text, cut off by an offset from its own end and a length. -/
theorem slice_of_suffix (before part after ends : Bytes) {len : Nat} (exact_ : len = part.length) :
    ((before ++ part ++ after ++ ends).drop
      ((before ++ part ++ after).length - (part ++ after).length)).take len = part := by
  have offset : (before ++ part ++ after).length - (part ++ after).length = before.length := by
    simp only [List.length_append]
    omega
  rw [offset, exact_, List.append_assoc, List.append_assoc, List.drop_left, List.take_left]

/-- The line `5,P k:v` with a carriage return behind it. -/
def putLine : Bytes := [53, 44, 80, 32, 107, 58, 118, 13]

end BandleCxl.Guarantees
