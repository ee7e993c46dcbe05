import BandleCxl.Invariant.TraceLine

/-!
The splitter's `parse_line` against the replayer's `parse_line_view`. The splitter
reads the time with `stoull`, which skips blanks and signs and ignores what follows
the digits; it accepts an empty key in front of a colon; and it keeps a colon in the
key of a read or a delete. The replayer does none of that and cuts lengths to 32 bits.
So the parsers agree on a line that the splitter accepts exactly when it has none of
these.
-/
namespace BandleCxl.Guarantees
open Library Source Invariant

/-- The same time, operation and key, and for a put or an update the same value. -/
def Agrees (p : ParsedOp) (v : ParsedLineView) : Prop :=
  v.tsUs = p.tsUs ∧ v.op = p.op ∧ v.keyPtr.take v.keyLen = p.key ∧
    (p.op = opP ∨ p.op = opU → ∃ ptr, v.valuePtr = some ptr ∧ ptr.take v.valueLen = p.value)

/-- The text before the first comma. -/
def stampOf (line : Bytes) : Bytes := line.takeWhile (· ≠ 44)

/-- The text after the first comma, without the line end. -/
def requestOf (line : Bytes) : Bytes := dropLineEnd ((line.dropWhile (· ≠ 44)).drop 1)

/-- A put or an update has a key, and key and value are shorter than `2 ^ 32`; a read or
a delete has no colon and is shorter than `2 ^ 32`. -/
def PlainRest (op : UInt8) (rest : Bytes) : Prop :=
  (op = opP ∨ op = opU → rest.head? ≠ some 58 ∧ (rest.takeWhile (· ≠ 58)).length < 2 ^ 32 ∧
    ((rest.dropWhile (· ≠ 58)).drop 1).length < 2 ^ 32) ∧
  (¬ (op = opP ∨ op = opU) → 58 ∉ rest ∧ rest.length < 2 ^ 32)

/-- The time is digits only, and what follows the operation is plain. -/
def PlainLine (line : Bytes) : Prop :=
  (∀ b ∈ stampOf line, isDigit b = true) ∧
    PlainRest ((requestOf line).headD 0) ((requestOf line).drop 2)

instance (op : UInt8) (rest : Bytes) : Decidable (PlainRest op rest) :=
  inferInstanceAs (Decidable ((_ → _) ∧ (_ → _)))

instance (line : Bytes) : Decidable (PlainLine line) :=
  have : Decidable (∀ b ∈ stampOf line, isDigit b = true) := List.decidableBAll _ _
  inferInstanceAs (Decidable (_ ∧ _))

/-! ### Parts -/

theorem takeWhile_split {first : Bytes} (rest : Bytes) {a : UInt8} (absent : a ∉ first) :
    (first ++ a :: rest).takeWhile (· ≠ a) = first ∧
      ((first ++ a :: rest).dropWhile (· ≠ a)).drop 1 = rest := by
  have all : ∀ b ∈ first, (decide (b ≠ a)) = true := by
    intro b member
    simp only [decide_eq_true_eq]
    rintro rfl
    exact absent member
  constructor
  · rw [List.takeWhile_append_of_pos all]
    simp
  · rw [List.dropWhile_append_of_pos all]
    simp

theorem stampOf_shaped {line stamp rest : Bytes} {op : UInt8} (h : Shaped line stamp op rest) :
    stampOf line = stamp ∧ requestOf line = op :: 32 :: rest := by
  obtain ⟨tail, eq, ending⟩ := h.split
  obtain ⟨before, after⟩ := takeWhile_split tail h.noComma
  unfold stampOf requestOf
  rw [eq, before, after]
  exact ⟨rfl, ending⟩

/-! ### Agreement -/

/-- A put or an update. -/
theorem colon_agrees_iff (ts : Nat) {op : UInt8} {key value : Bytes} (absent : 58 ∉ key)
    (write : op = opP ∨ op = opU) :
    (∃ v, viewOf ts op (key ++ 58 :: value) = some v ∧ Agrees ⟨ts, op, key, value⟩ v) ↔
      PlainRest op (key ++ 58 :: value) := by
  obtain ⟨before, after⟩ := takeWhile_split value absent
  have whole := take_cut_iff value []
  rw [List.append_nil] at whole
  have plain : PlainRest op (key ++ 58 :: value) ↔
      (key ++ 58 :: value).head? ≠ some 58 ∧ key.length < 2 ^ 32 ∧ value.length < 2 ^ 32 := by
    unfold PlainRest
    rw [before, after]
    exact ⟨fun h => h.1 write, fun h => ⟨fun _ => h, fun read => absurd write read⟩⟩
  rw [viewOf_colon ts op value absent, plain]
  cases key with
  | nil => simp
  | cons b key =>
    have other : b ≠ 58 := fun same => absent (by simp [same])
    have cut := take_cut_iff (b :: key) (58 :: value)
    rw [if_neg (by simp)]
    constructor
    · rintro ⟨v, accepted, -, -, keySame, valueSame⟩
      obtain rfl := Option.some.inj accepted
      obtain ⟨ptr, given, text⟩ := valueSame write
      obtain rfl := Option.some.inj given
      exact ⟨by simpa using other, cut.mp keySame, whole.mp text⟩
    · rintro ⟨-, keyShort, valueShort⟩
      exact ⟨_, rfl, rfl, rfl, cut.mpr keyShort, fun _ => ⟨value, rfl, whole.mpr valueShort⟩⟩

/-- A read or a delete. -/
theorem plain_agrees_iff (ts : Nat) {op : UInt8} {rest : Bytes} (value : Bytes)
    (nonempty : rest ≠ []) (read : ¬ (op = opP ∨ op = opU)) :
    (∃ v, viewOf ts op rest = some v ∧ Agrees ⟨ts, op, rest, value⟩ v) ↔ PlainRest op rest := by
  have plain : PlainRest op rest ↔ 58 ∉ rest ∧ rest.length < 2 ^ 32 :=
    ⟨fun h => h.2 read, fun h => ⟨fun write => absurd write read, fun _ => h⟩⟩
  have whole := take_cut_iff rest []
  rw [List.append_nil] at whole
  rw [plain]
  constructor
  · rintro ⟨v, accepted, -, -, keySame, -⟩
    have absent : 58 ∉ rest := by
      -- a colon would end the replayer's key before the end of the line
      intro member
      obtain ⟨i, found⟩ := Option.isSome_iff_exists.mp (List.isSome_idxOf?.mpr member)
      obtain ⟨first, last, eq, none, -⟩ := exists_split_of_idxOf? found
      subst eq
      rw [viewOf_colon ts op last none] at accepted
      split at accepted
      · cases accepted
      · obtain rfl := Option.some.inj accepted
        have length := congrArg List.length keySame
        simp only [List.length_take, List.length_append, List.length_cons] at length
        have bound := Nat.mod_le first.length (2 ^ 32)
        omega
    rw [viewOf_plain ts op absent nonempty] at accepted
    obtain rfl := Option.some.inj accepted
    exact ⟨absent, whole.mp keySame⟩
  · rintro ⟨absent, short⟩
    exact ⟨_, viewOf_plain ts op absent nonempty, rfl, rfl, whole.mpr short,
      fun write => absurd write read⟩

theorem rest_agrees_iff {p : ParsedOp} {rest oldValue : Bytes} (nonempty : rest ≠ [])
    (parts : splitRequest p.op rest oldValue = some (p.key, p.value)) :
    (∃ v, viewOf p.tsUs p.op rest = some v ∧ Agrees p v) ↔ PlainRest p.op rest := by
  obtain ⟨ts, op, key, value⟩ := p
  dsimp only at parts ⊢
  unfold splitRequest at parts
  split at parts
  · next write =>
    obtain ⟨pos, found, eq⟩ := Option.map_eq_some_iff.mp parts
    obtain ⟨first, last, split, absent, rfl⟩ := exists_split_of_idxOf? found
    obtain ⟨keyIs, valueIs⟩ := Prod.mk.inj eq
    have key' : first = key := by rw [← keyIs, split]; simp
    have value' : last = value := by rw [← valueIs, split]; simp
    subst key' value'
    rw [split]
    exact colon_agrees_iff ts absent write
  · next read =>
    split at parts
    · obtain ⟨rfl, rfl⟩ := Prod.mk.inj (Option.some.inj parts)
      exact plain_agrees_iff ts _ nonempty read
    · cases parts

/-- Digits are read alike as long as `stoull` does not overflow. -/
theorem stamps_agree {stamp : Bytes} {ts : Nat} (digits : ∀ b ∈ stamp, isDigit b = true)
    (number : stoull stamp = some ts) : parseU64 stamp = some ts := by
  have nonempty : stamp ≠ [] := by
    rintro rfl
    cases number
  rw [stoull_digits digits nonempty] at number
  split at number
  · cases number
  · next small =>
    rw [← number]
    exact parseU64_digits digits nonempty (Nat.not_le.mp small)

end BandleCxl.Guarantees
