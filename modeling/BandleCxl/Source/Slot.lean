import BandleCxl.Source.Message

/-!
One ring slot (`include/message_queue.h`): the descriptor that `push` and
`write_batch_at` fill in, the padded non-temporal payload store, and the fields
that `read_slot_descriptor` copies back. A slot's payload is a range of
`kMaxValueBytes` bytes of one flat payload memory.
-/
namespace BandleCxl.Source
open Library

/-- The descriptor written for a message, field by field. -/
def descriptorOf (slotSeq : Nat) (msg : BandleMessage) : BandleDescriptor where
  slotSeq := slotSeq
  type := msg.type
  seq := msg.body.seq
  round := msg.body.round
  sender := msg.body.sender
  proposer := msg.body.proposer
  clientReqId := msg.body.clientReqId
  startTsc := msg.body.startTsc
  value := msg.body.value
  promise := msg.body.promise
  op := msg.body.op
  keyLen := msg.body.keyLen
  valueLen := msg.body.valueLen

/-- What `read_slot_descriptor` copies; the payload bytes of `out` stay. -/
def fillFrom (d : BandleDescriptor) (out : BandleMessage) : BandleMessage where
  slotSeq := d.slotSeq
  type := d.type
  body :=
    { seq := d.seq
      round := d.round
      sender := d.sender
      proposer := d.proposer
      clientReqId := d.clientReqId
      startTsc := d.startTsc
      value := d.value
      promise := d.promise
      op := d.op
      keyLen := d.keyLen
      valueLen := d.valueLen
      data := out.body.data }

/-- `key_len + value_len`, computed in 64 bits from two 32-bit lengths. -/
def BandleDescriptor.bytes (d : BandleDescriptor) : Nat := d.keyLen + d.valueLen

def BandlePayload.bytes (b : BandlePayload) : Nat := b.keyLen + b.valueLen

/-- `read_slot` on a slot whose descriptor is accepted. -/
def readSlot (payloads : Mem) (idx : Nat) (d : BandleDescriptor) (out : BandleMessage) :
    BandleMessage :=
  let msg := fillFrom d out
  { msg with body := { msg.body with
    data := msg.body.data.store 0 (payloads.load (idx * kMaxValueBytes) msg.body.bytes) } }

/-! ### The padded payload store -/

/-- `nt_store_16` of sixteen bytes. -/
def ntStore16 (payloads : Mem) (dst : Nat) (src : Bytes) : Mem := payloads.store dst src

/-- `count` consecutive 16-byte stores from offset `off` on. -/
def ntStore16s (dst : Nat) (data : Mem) : Nat → Nat → Mem → Mem
  | _, 0, payloads => payloads
  | off, count + 1, payloads =>
    ntStore16s dst data (off + 16) count (ntStore16 payloads (dst + off) (data.load off 16))

/-- The loop over full 64-byte lines: four stores each. -/
def ntStoreLines (dst : Nat) (data : Mem) : Nat → Nat → Mem → Mem
  | _, 0, payloads => payloads
  | off, lines + 1, payloads =>
    ntStoreLines dst data (off + 64) lines (ntStore16s dst data off 4 payloads)

def ntStorePayloadPadded (payloads : Mem) (idx : Nat) (data : Mem) (len : Nat) : Mem :=
  if len = 0 then payloads
  else
    let dst := idx * kMaxValueBytes
    let full := len / 64 * 64
    let lines := ntStoreLines dst data 0 (len / 64) payloads
    -- the `while (off + 16 <= len)` loop and the offset it ends at
    let rest := ntStore16s dst data full ((len - full) / 16) lines
    let off := full + (len - full) / 16 * 16
    if off < len then
      ntStore16 rest (dst + off) (data.load off (len - off) ++ List.replicate (16 - (len - off)) 0)
    else rest

theorem ntStore16s_apply (dst : Nat) (data : Mem) (off count : Nat) (payloads : Mem) (a : Nat) :
    ntStore16s dst data off count payloads a =
      if dst + off ≤ a ∧ a < dst + off + 16 * count then data (a - dst) else payloads a := by
  induction count generalizing off payloads with
  | zero =>
    have empty : ¬ (dst + off ≤ a ∧ a < dst + off + 16 * 0) := by omega
    rw [if_neg empty]
    rfl
  | succ count ih =>
    rw [ntStore16s, ih]
    by_cases later : dst + (off + 16) ≤ a ∧ a < dst + (off + 16) + 16 * count
    · rw [if_pos later, if_pos (by omega)]
    · rw [if_neg later]
      by_cases first : dst + off ≤ a ∧ a < dst + off + 16
      · obtain ⟨i, here⟩ : ∃ i, a = dst + off + i := ⟨a - (dst + off), by omega⟩
        subst a
        have inside : i < 16 := by omega
        rw [if_pos (by omega), ntStore16, Mem.store_inside (by rw [Mem.load_length]; exact inside),
          Mem.load_getD _ _ _ _ inside]
        congr 1
        omega
      · rw [if_neg (by omega), ntStore16, Mem.store_outside (by rw [Mem.load_length]; omega)]

theorem ntStoreLines_apply (dst : Nat) (data : Mem) (off lines : Nat) (payloads : Mem) (a : Nat) :
    ntStoreLines dst data off lines payloads a =
      if dst + off ≤ a ∧ a < dst + off + 64 * lines then data (a - dst) else payloads a := by
  induction lines generalizing off payloads with
  | zero =>
    have empty : ¬ (dst + off ≤ a ∧ a < dst + off + 64 * 0) := by omega
    rw [if_neg empty]
    rfl
  | succ lines ih =>
    rw [ntStoreLines, ih, ntStore16s_apply]
    by_cases later : dst + (off + 64) ≤ a ∧ a < dst + (off + 64) + 64 * lines
    · rw [if_pos later, if_pos (by omega)]
    · rw [if_neg later]
      by_cases first : dst + off ≤ a ∧ a < dst + off + 16 * 4
      · rw [if_pos first, if_pos (by omega)]
      · rw [if_neg first, if_neg (by omega)]

/-- The first `len` bytes of the slot are the source's. -/
theorem ntStorePayloadPadded_inside (payloads : Mem) (idx : Nat) (data : Mem) {len i : Nat}
    (inside : i < len) :
    ntStorePayloadPadded payloads idx data len (idx * kMaxValueBytes + i) = data i := by
  have some : len ≠ 0 := by omega
  unfold ntStorePayloadPadded
  rw [if_neg some]
  -- the bytes below the last partial block come from the two loops
  have loops : ∀ j, j < len / 64 * 64 + (len - len / 64 * 64) / 16 * 16 →
      ntStore16s (idx * kMaxValueBytes) data (len / 64 * 64) ((len - len / 64 * 64) / 16)
        (ntStoreLines (idx * kMaxValueBytes) data 0 (len / 64) payloads)
        (idx * kMaxValueBytes + j) = data j := by
    intro j below
    have shift : idx * kMaxValueBytes + j - idx * kMaxValueBytes = j := by omega
    rw [ntStore16s_apply, ntStoreLines_apply, shift]
    by_cases rest : len / 64 * 64 ≤ j
    · rw [if_pos (by omega)]
    · rw [if_neg (by omega), if_pos (by omega)]
  have reached : len / 64 * 64 + (len - len / 64 * 64) / 16 * 16 ≤ len := by omega
  generalize len / 64 * 64 + (len - len / 64 * 64) / 16 * 16 = off at loops reached ⊢
  generalize ntStore16s (idx * kMaxValueBytes) data (len / 64 * 64) ((len - len / 64 * 64) / 16)
    (ntStoreLines (idx * kMaxValueBytes) data 0 (len / 64) payloads) = rest at loops ⊢
  split
  · by_cases tail : off ≤ i
    · obtain ⟨j, here⟩ : ∃ j, i = off + j := ⟨i - off, by omega⟩
      have short : j < len - off := by omega
      rw [here, ← Nat.add_assoc, ntStore16, Mem.store_inside (by simp; omega),
        List.getD_eq_getElem?_getD, List.getElem?_append_left (by rw [Mem.load_length]; exact short),
        ← List.getD_eq_getElem?_getD, Mem.load_getD _ _ _ _ short]
    · rw [ntStore16, Mem.store_outside (by simp; omega)]
      exact loops i (by omega)
  · exact loops i (by omega)

/-- Nothing is written before the slot or beyond the last sixteen bytes begun. -/
theorem ntStorePayloadPadded_beyond (payloads : Mem) (idx : Nat) (data : Mem) {len a : Nat}
    (outside : a < idx * kMaxValueBytes ∨ idx * kMaxValueBytes + (len + 15) / 16 * 16 ≤ a) :
    ntStorePayloadPadded payloads idx data len a = payloads a := by
  unfold ntStorePayloadPadded
  split
  · rfl
  · dsimp only
    have loops : ntStore16s (idx * kMaxValueBytes) data (len / 64 * 64) ((len - len / 64 * 64) / 16)
        (ntStoreLines (idx * kMaxValueBytes) data 0 (len / 64) payloads) a = payloads a := by
      rw [ntStore16s_apply, ntStoreLines_apply, if_neg (by omega), if_neg (by omega)]
    split
    · rw [ntStore16, Mem.store_outside, loops]
      simp only [List.length_append, Mem.load_length, List.length_replicate]
      omega
    · exact loops

/-- Nothing outside the slot is written. -/
theorem ntStorePayloadPadded_outside (payloads : Mem) (idx : Nat) (data : Mem) {len a : Nat}
    (fits : len ≤ kMaxValueBytes)
    (outside : a < idx * kMaxValueBytes ∨ idx * kMaxValueBytes + kMaxValueBytes ≤ a) :
    ntStorePayloadPadded payloads idx data len a = payloads a := by
  have size : kMaxValueBytes = 1088 := rfl
  exact ntStorePayloadPadded_beyond payloads idx data (by omega)

theorem ntStorePayloadPadded_load (payloads : Mem) (idx : Nat) (data : Mem) (len : Nat) :
    (ntStorePayloadPadded payloads idx data len).load (idx * kMaxValueBytes) len =
      data.load 0 len := by
  rw [Mem.load_eq_iff]
  intro i inside
  rw [ntStorePayloadPadded_inside payloads idx data inside, Nat.zero_add]

/-- The bytes of another slot are untouched. -/
theorem ntStorePayloadPadded_other (payloads : Mem) {idx idx' : Nat} (data : Mem) {len a : Nat}
    (fits : len ≤ kMaxValueBytes) (other : idx' ≠ idx) (lo : idx' * kMaxValueBytes ≤ a)
    (hi : a < idx' * kMaxValueBytes + kMaxValueBytes) :
    ntStorePayloadPadded payloads idx data len a = payloads a := by
  apply ntStorePayloadPadded_outside payloads idx data fits
  rcases Nat.lt_or_gt_of_ne other with lt | gt
  · left
    calc a < (idx' + 1) * kMaxValueBytes := by rw [Nat.succ_mul]; exact hi
      _ ≤ idx * kMaxValueBytes := Nat.mul_le_mul_right _ lt
  · right
    calc idx * kMaxValueBytes + kMaxValueBytes = (idx + 1) * kMaxValueBytes := by
          rw [Nat.succ_mul]
      _ ≤ idx' * kMaxValueBytes := Nat.mul_le_mul_right _ gt
      _ ≤ a := lo

end BandleCxl.Source
