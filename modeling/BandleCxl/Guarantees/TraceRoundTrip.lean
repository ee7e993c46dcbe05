import BandleCxl.Invariant.TraceLine
import BandleCxl.Source.CxlTraceDB

/-!
What the YCSB binding writes and what the two C++ tools read. Every line the binding
appends survives the split, and the replayer gets back the timestamp, the operation and
the bytes of key and value, whatever commas, blanks and digits the key and whatever
colons the value contain.
-/
namespace BandleCxl.Guarantees
open Library Source Invariant

/-! ### Calls -/

/-- The operation byte of the emitted line. -/
def emittedOp (b : Binding) (opIndex : Nat) : YcsbCall → UInt8
  | .insert _ | .update _ => opP
  | .read _ => if b.preloadCount > 0 ∧ opIndex < b.preloadCount then opP else opG
  | .delete _ => opD

/-- The value of the emitted line; reads and deletes have none. -/
def emittedValue (b : Binding) (opIndex : Nat) (call : YcsbCall) : Option JChars :=
  if emittedOp b opIndex call = opP then
    some (b.payloadValue [80] (b.normalizeKey call.key) b.fixedValue)
  else none

/-- Key and value as the line has them. -/
def restChars (key : JChars) : Option JChars → JChars
  | none => key
  | some value => key ++ 58 :: value

theorem emittedOp_cases (b : Binding) (opIndex : Nat) (call : YcsbCall) :
    emittedOp b opIndex call = opP ∨ emittedOp b opIndex call = opG ∨
      emittedOp b opIndex call = opD := by
  cases call with
  | insert key => exact Or.inl rfl
  | update key => exact Or.inl rfl
  | delete key => exact Or.inr (Or.inr rfl)
  | read key =>
    unfold emittedOp
    dsimp only
    split
    · exact Or.inl rfl
    · exact Or.inr (Or.inl rfl)

theorem line_eq (b : Binding) (opIndex : Nat) (call : YcsbCall) :
    call.line b opIndex = (emittedOp b opIndex call).toUInt16 :: 32 ::
      restChars (b.normalizeKey call.key) (emittedValue b opIndex call) := by
  cases call with
  | insert key => rfl
  | update key => rfl
  | delete key => rfl
  | read key =>
    unfold YcsbCall.line emittedValue emittedOp
    dsimp only
    split <;> rfl

theorem normalizeKey_length (b : Binding) (key : Option JChars) :
    (b.normalizeKey key).length = b.keyBytes := by
  unfold Binding.normalizeKey
  dsimp only
  split
  · assumption
  · split
    · rw [List.length_take]
      omega
    · rw [List.length_append, List.length_replicate]
      omega

/-- The emitted value is a piece of the configured one. -/
theorem payloadValue_mem {b : Binding} {verb key : JChars} {value : Option JChars} {c : UInt16}
    (member : c ∈ b.payloadValue verb key value) : ∃ v ∈ value, c ∈ v := by
  have piece : ∀ (limit : Int) (l : JChars),
      c ∈ (if (l.length : Int) > limit then l.take limit.toNat else l) → c ∈ l := by
    intro limit l inside
    split at inside
    · exact List.mem_of_mem_take inside
    · exact inside
  have whole := piece _ _ member
  cases value with
  | none => simp at whole
  | some v => exact ⟨v, rfl, whole⟩

/-! ### Bytes -/

theorem encode_cons (charset : Charset) (c : UInt16) (after : JChars) (small : c < 128) :
    charset.encode (c :: after) = c.toUInt8 :: charset.encode after := by
  have whole := charset.ascii [] c after small
  rwa [charset.encode_nil] at whole

theorem encode_ascii (charset : Charset) (text : Bytes) (after : JChars)
    (small : ∀ b ∈ text, b < 128) :
    charset.encode (text.map (·.toUInt16) ++ after) = text ++ charset.encode after := by
  induction text with
  | nil => rfl
  | cons b rest ih =>
    have first : b.toUInt16 < 128 := by
      have := small b (by simp)
      rw [UInt8.lt_iff_toNat_lt] at this
      rw [UInt16.lt_iff_toNat_lt]
      simpa using this
    rw [List.map_cons, List.cons_append, encode_cons charset _ _ first,
      ih fun b' member => small b' (by simp [member])]
    simp

/-- A string of the virtual machine encodes to less than `2 ^ 32` bytes. -/
theorem encode_lt (charset : Charset) {s : JChars} (sized : JavaSized s) :
    (charset.encode s).length < 2 ^ 32 := by
  rcases sized with wide | ⟨latin, short⟩
  · have width := charset.width s
    omega
  · have width := charset.latin s latin
    omega

theorem javaSized_infix {s t : JChars} (sized : JavaSized t) (part : s <:+: t) : JavaSized s := by
  have length := part.length_le
  rcases sized with wide | ⟨latin, short⟩
  · exact Or.inl (by omega)
  · exact Or.inr ⟨fun c member => latin c (part.subset member), by omega⟩

/-- Bytes of a clean string. -/
theorem encode_clean (charset : Charset) {s : JChars} (clean : ∀ c ∈ s, c ≠ 10 ∧ c ≠ 13) :
    ∀ b ∈ charset.encode s, b ≠ 10 ∧ b ≠ 13 := by
  intro b member
  constructor
  · rintro rfl
    exact (clean _ (charset.separator s 10 member (by decide))).1 rfl
  · rintro rfl
    exact (clean _ (charset.separator s 13 member (by decide))).2 rfl

/-! ### Lines -/

theorem parseU64_decimal {ts : Nat} (small : ts < 2 ^ 64) : parseU64 (decimal ts) = some ts := by
  have read := parseU64_digits (decimal_digits ts) (decimal_ne_nil ts)
  rw [readDigits_decimal] at read
  exact read small

/-- The line of a call, with the line end a reader may still see. -/
theorem shaped_line (charset : Charset) (ts : Nat) (b : Binding) (opIndex : Nat) (call : YcsbCall)
    {lineEnd : Bytes} (ends : ∀ x ∈ lineEnd, x = 10 ∨ x = 13)
    (clean : ∀ c ∈ restChars (b.normalizeKey call.key) (emittedValue b opIndex call),
      c ≠ 10 ∧ c ≠ 13) :
    Shaped (appendLine charset ts (call.line b opIndex) ++ lineEnd) (decimal ts)
      (emittedOp b opIndex call)
      (charset.encode (restChars (b.normalizeKey call.key) (emittedValue b opIndex call))) := by
  obtain ⟨small, noComma, comment⟩ := decimal_shape ts
  have op : (emittedOp b opIndex call).toUInt16 < 128 ∧
      (emittedOp b opIndex call).toUInt16.toUInt8 = emittedOp b opIndex call ∧
      emittedOp b opIndex call ≠ 10 ∧ emittedOp b opIndex call ≠ 13 := by
    rcases emittedOp_cases b opIndex call with is | is | is <;> rw [is] <;> decide
  have bytes : appendLine charset ts (call.line b opIndex) = decimal ts ++ 44 ::
      emittedOp b opIndex call :: 32 ::
        charset.encode (restChars (b.normalizeKey call.key) (emittedValue b opIndex call)) := by
    rw [appendLine, line_eq, encode_ascii charset _ _ small, encode_cons charset 44 _ (by decide),
      encode_cons charset _ _ op.1, encode_cons charset 32 _ (by decide), op.2.1]
    rfl
  refine ⟨?_, noComma, ?_⟩
  · rw [bytes, List.append_assoc]
    exact comment _
  · refine ⟨emittedOp b opIndex call :: 32 ::
      charset.encode (restChars (b.normalizeKey call.key) (emittedValue b opIndex call)) ++ lineEnd,
      ?_, ?_⟩
    · rw [bytes, List.append_assoc, List.cons_append]
    · refine dropLineEnd_append ?_ ends
      intro x member
      rcases List.mem_cons.mp member with is | member
      · rw [is]
        exact op.2.2
      · rcases List.mem_cons.mp member with is | member
        · rw [is]
          decide
        · exact encode_clean charset clean x member

/-! ### The round trip -/

/-- The replayer's view holds these parts; the value is absent where the line has none. -/
structure Recovers (v : ParsedLineView) (ts : Nat) (op : UInt8) (key : Bytes)
    (value : Option Bytes) : Prop where
  time : v.tsUs = ts
  operation : v.op = op
  keyBytes : v.keyPtr.take v.keyLen = key
  valueBytes : v.valuePtr.map (·.take v.valueLen) = value

/-- What the replayer makes of an emitted key and value. -/
theorem viewOf_recovers (charset : Charset) (ts : Nat) (op : UInt8) {key : JChars}
    {value : Option JChars} (nonempty : key ≠ []) (noColon : 58 ∉ key)
    (sized : JavaSized (restChars key value)) :
    ∃ v, viewOf ts op (charset.encode (restChars key value)) = some v ∧
      Recovers v ts op (charset.encode key) (value.map charset.encode) := by
  have absent : 58 ∉ charset.encode key := fun member =>
    noColon (charset.separator key 58 member (by decide))
  have keyBytes := charset.encode_ne_nil key nonempty
  cases value with
  | none =>
    have short := encode_lt charset sized
    have cut := (take_cut_iff (charset.encode key) []).mpr short
    rw [List.append_nil] at cut
    exact ⟨_, viewOf_plain ts op absent keyBytes, rfl, rfl, cut, rfl⟩
  | some value =>
    have keySized : JavaSized key := javaSized_infix sized (List.prefix_append key _).isInfix
    have valueSized : JavaSized value :=
      javaSized_infix sized ⟨key ++ [58], [], by simp [restChars]⟩
    have view := viewOf_colon ts op (charset.encode value) absent
    rw [if_neg (by simpa using keyBytes)] at view
    have whole : charset.encode (restChars key (some value)) =
        charset.encode key ++ 58 :: charset.encode value := charset.ascii key 58 value (by decide)
    rw [whole]
    refine ⟨_, view, rfl, rfl, ?_, ?_⟩
    · exact (take_cut_iff _ _).mpr (encode_lt charset keySized)
    · have cut := (take_cut_iff (charset.encode value) []).mpr (encode_lt charset valueSized)
      rw [List.append_nil] at cut
      exact congrArg some cut

/-- `parse_line` finds the parts of an emitted line. -/
theorem splitRequest_emitted (charset : Charset) (b : Binding) (opIndex : Nat) (call : YcsbCall)
    (old : Bytes) :
    (splitRequest (emittedOp b opIndex call)
      (charset.encode (restChars (b.normalizeKey call.key) (emittedValue b opIndex call)))
      old).isSome = true := by
  unfold splitRequest emittedValue
  by_cases put : emittedOp b opIndex call = opP
  · rw [if_pos (Or.inl put), if_pos put, restChars, charset.ascii _ 58 _ (by decide),
      Option.isSome_map, List.isSome_idxOf?]
    exact List.mem_append_right _ List.mem_cons_self
  · have other : emittedOp b opIndex call ≠ opU ∧
        (emittedOp b opIndex call = opD ∨ emittedOp b opIndex call = opG) := by
      rcases emittedOp_cases b opIndex call with is | is | is
      · exact absurd is put
      · rw [is]
        decide
      · rw [is]
        decide
    rw [if_neg (by simp [put, other.1]), if_pos other.2]
    rfl

theorem restChars_clean {b : Binding} {opIndex : Nat} {call : YcsbCall}
    (cleanKey : ∀ c ∈ b.normalizeKey call.key, c ≠ 58 ∧ c ≠ 10 ∧ c ≠ 13)
    (cleanValue : ∀ value ∈ b.fixedValue, ∀ c ∈ value, c ≠ 10 ∧ c ≠ 13) :
    ∀ c ∈ restChars (b.normalizeKey call.key) (emittedValue b opIndex call), c ≠ 10 ∧ c ≠ 13 := by
  intro c member
  unfold emittedValue at member
  split at member
  · rcases List.mem_append.mp member with inKey | later
    · exact (cleanKey c inKey).2
    · rcases List.mem_cons.mp later with colon | inValue
      · rw [colon]
        decide
      · obtain ⟨value, configured, inside⟩ := payloadValue_mem inValue
        exact cleanValue value configured c inside
  · exact (cleanKey c member).2

end BandleCxl.Guarantees
