import BandleCxl.Source.RingCalls
import BandleCxl.Invariant.Ring

/-!
`push_batch` against single pushes. Both store the same descriptors and payloads at
the same positions; the batch tests for room once and publishes the head once. A
message that is too long stops `write_batch_at` in the middle, but what it has
written by then lies in free slots, and the head still hides it.
-/
namespace BandleCxl.Guarantees
open Library Source Invariant RingMemory

variable {r : RingShape}

/-! ### One stored message -/

/-- Counters and all slots other than `idx` agree. -/
structure SameBut (idx : Nat → Prop) (s s' : RingMemory) : Prop where
  head : s'.head = s.head
  tail : s'.tail = s.tail
  descs : ∀ k, ¬ idx k → s'.descs k = s.descs k
  payloads : ∀ k, ¬ idx k → ∀ a, k * kMaxValueBytes ≤ a → a < k * kMaxValueBytes + kMaxValueBytes →
    s'.payloads a = s.payloads a

theorem SameBut.refl (idx : Nat → Prop) (s : RingMemory) : SameBut idx s s :=
  ⟨rfl, rfl, fun _ _ => rfl, fun _ _ _ _ _ => rfl⟩

theorem SameBut.trans {idx : Nat → Prop} {a b c : RingMemory} (first : SameBut idx a b)
    (second : SameBut idx b c) : SameBut idx a c where
  head := second.head.trans first.head
  tail := second.tail.trans first.tail
  descs k other := (second.descs k other).trans (first.descs k other)
  payloads k other a lo hi := (second.payloads k other a lo hi).trans (first.payloads k other a lo hi)

theorem SameBut.weaken {idx idx' : Nat → Prop} {s s' : RingMemory} (h : SameBut idx s s')
    (le : ∀ k, idx k → idx' k) : SameBut idx' s s' where
  head := h.head
  tail := h.tail
  descs k other := h.descs k fun is => other (le k is)
  payloads k other := h.payloads k fun is => other (le k is)

theorem storeAt_sameBut {s stored : RingMemory} {pos : Nat} {msg : BandleMessage}
    (success : s.storeAt r pos msg = some stored) : SameBut (· = r.slot pos) s stored := by
  unfold storeAt at success
  split at success
  · cases success
  · next short =>
    obtain rfl := Option.some.inj success
    refine ⟨rfl, rfl, ?_, ?_⟩
    · intro k other
      exact Function.update_of_ne other _ _
    · intro k other a lo hi
      dsimp only
      split
      · exact ntStorePayloadPadded_other s.payloads msg.body.data (Nat.not_lt.mp short) other lo hi
      · rfl

/-- Storing does not look at the head. -/
theorem storeAt_publishHead (s : RingMemory) (pos head : Nat) (lt : head < 2 ^ 64)
    (msg : BandleMessage) :
    (s.publishHead head lt).storeAt r pos msg =
      (s.storeAt r pos msg).map fun stored => stored.publishHead head lt := by
  unfold storeAt
  split <;> rfl

/-! ### The loop of `write_batch_at` -/

/-- Whatever the loop returns, it has touched only the slots of its positions. -/
theorem writeBatchAt_sameBut (head i : Nat) (msgs : List BandleMessage) (s : RingMemory) :
    SameBut (fun k => ∃ j, j < msgs.length ∧ k = r.slot (add64 head (i + j))) s
      (writeBatchAt r head i msgs s).2 := by
  induction msgs generalizing i s with
  | nil => exact .refl _ s
  | cons msg rest ih =>
    simp only [writeBatchAt]
    split
    · exact .refl _ s
    · next stored success =>
      refine SameBut.trans ((storeAt_sameBut success).weaken ?_) ((ih (i + 1) stored).weaken ?_)
      · intro k here
        exact ⟨0, by simp, here⟩
      · rintro k ⟨j, within, here⟩
        refine ⟨j + 1, by simpa using within, ?_⟩
        rw [here]
        congr 2
        omega

theorem add64_succ (p i : Nat) : add64 (add64 p i) 1 = add64 p (i + 1) := by
  unfold add64
  omega

/-- One more published message. -/
theorem sub64_succ {p t : Nat} (below : t < 2 ^ 64) (room : sub64 p t < r.capacity) :
    sub64 (add64 p 1) t = sub64 p t + 1 := by
  have small := capacity_small r
  unfold sub64 at room ⊢
  unfold add64
  omega

theorem push_some {s stored : RingMemory} {msg : BandleMessage}
    (room : sub64 s.head s.tail < r.capacity) (success : s.storeAt r s.head msg = some stored) :
    s.push r msg = (true, stored.publishHead (add64 s.head 1) (add64_lt _ _)) := by
  simp only [push, if_neg (Nat.not_le.mpr room), success]

theorem push_none {s : RingMemory} {msg : BandleMessage} (refused : s.storeAt r s.head msg = none) :
    s.push r msg = (false, s) := by
  unfold push
  split
  · rfl
  · rw [refused]

/-- With room for all, single pushes follow the loop, one head store behind each. -/
theorem pushEach_writeBatchAt (head i : Nat) (msgs : List BandleMessage) (s : RingMemory)
    (room : sub64 (add64 head i) s.tail + msgs.length ≤ r.capacity) :
    (pushEach r msgs (s.publishHead (add64 head i) (add64_lt _ _))).1 =
        (writeBatchAt r head i msgs s).1 ∧
      ((writeBatchAt r head i msgs s).1 = true →
        (pushEach r msgs (s.publishHead (add64 head i) (add64_lt _ _))).2 =
          (writeBatchAt r head i msgs s).2.publishHead (add64 head (i + msgs.length))
            (add64_lt _ _)) := by
  induction msgs generalizing i s with
  | nil => exact ⟨rfl, fun _ => rfl⟩
  | cons msg rest ih =>
    rw [List.length_cons] at room
    have moved := storeAt_publishHead (r := r) s (add64 head i) _ (add64_lt head i) msg
    simp only [pushEach, writeBatchAt]
    cases success : s.storeAt r (add64 head i) msg with
    | none =>
      rw [success] at moved
      rw [push_none moved]
      exact ⟨rfl, fun impossible => (by cases impossible)⟩
    | some stored =>
      rw [success] at moved
      have free : sub64 (add64 head i) s.tail < r.capacity := by omega
      rw [push_some free moved]
      have tail := (storeAt_sameBut success).tail
      have next := sub64_succ s.tail_lt free
      rw [add64_succ] at next
      have rest' := ih (i + 1) stored (by rw [tail, next]; omega)
      have len : i + 1 + rest.length = i + (msg :: rest).length := by
        rw [List.length_cons]
        omega
      simp only [len] at rest'
      have again : (stored.publishHead (add64 head i) (add64_lt _ _)).publishHead
          (add64 (s.publishHead (add64 head i) (add64_lt _ _)).head 1) (add64_lt _ _) =
          stored.publishHead (add64 head (i + 1)) (add64_lt _ _) := by
        simp only [publishHead, add64_succ]
      simp only [if_true]
      rw [again]
      exact rest'

/-- Without room for all, one of the single pushes finds the ring full. -/
theorem pushEach_full (msgs : List BandleMessage) (s : RingMemory)
    (full : r.capacity < sub64 s.head s.tail + msgs.length)
    (within : sub64 s.head s.tail ≤ r.capacity) : (pushEach r msgs s).1 = false := by
  induction msgs generalizing s with
  | nil =>
    rw [List.length_nil] at full
    omega
  | cons msg rest ih =>
    rw [List.length_cons] at full
    simp only [pushEach]
    by_cases room : sub64 s.head s.tail < r.capacity
    · cases success : s.storeAt r s.head msg with
      | none =>
        rw [push_none success]
        rfl
      | some stored =>
        rw [push_some room success]
        have tail := (storeAt_sameBut success).tail
        have next := sub64_succ s.tail_lt room
        simp only [if_true]
        refine ih _ ?_ ?_
        · simp only [publishHead]
          rw [tail, next]
          omega
        · simp only [publishHead]
          rw [tail, next]
          omega
    · have refused : s.push r msg = (false, s) := by
        simp only [push, if_pos (Nat.not_lt.mp room)]
      rw [refused]
      rfl

/-! ### What the consumer sees -/

/-- The positions a batch writes and those that hold unread messages share no slot. -/
theorem unread_slot_ne {s : RingMemory} {count k j : Nat}
    (room : sub64 s.head s.tail + count ≤ r.capacity) (unread : k < sub64 s.head s.tail)
    (written : j < count) : r.slot (add64 s.tail k) ≠ r.slot (add64 s.head (0 + j)) := by
  have small := capacity_small r
  have headLt := s.head_lt
  have tailLt := s.tail_lt
  have head : (s.tail + sub64 s.head s.tail) % 2 ^ 64 = s.head := by
    unfold sub64
    omega
  have unreadSlot := slot_add64 r s.tail k
  have writtenSlot := slot_add64 r (s.tail + sub64 s.head s.tail) (0 + j)
  rw [Nat.mod_eq_of_lt tailLt] at unreadSlot
  rw [head] at writtenSlot
  rw [unreadSlot, writtenSlot]
  exact slot_ne (by omega) (by omega)

theorem readAtAbs_sameBut {idx : Nat → Prop} {s s' : RingMemory} (same : SameBut idx s s') {abs : Nat}
    (other : ¬ idx (r.slot abs)) (out : BandleMessage) :
    s'.readAtAbs r abs out = s.readAtAbs r abs out := by
  unfold readAtAbs
  rw [same.descs _ other]
  dsimp only
  split
  · rfl
  · split
    · rfl
    · next short =>
      have bytes : s'.payloads.load (r.slot abs * kMaxValueBytes)
          (fillFrom (s.descs (r.slot abs)) out).body.bytes =
          s.payloads.load (r.slot abs * kMaxValueBytes)
            (fillFrom (s.descs (r.slot abs)) out).body.bytes := by
        refine Mem.load_congr fun a lo hi => same.payloads _ other a lo ?_
        have fits : (fillFrom (s.descs (r.slot abs)) out).body.bytes ≤ kMaxValueBytes :=
          Nat.not_lt.mp short
        omega
      simp only [readSlot, bytes]

/-- A batch that is written and not published is invisible. -/
theorem readable_unpublished {s : RingMemory} {msgs : List BandleMessage}
    (room : sub64 s.head s.tail + msgs.length ≤ r.capacity) (out : BandleMessage) :
    (writeBatchAt r s.head 0 msgs s).2.readable r out = s.readable r out := by
  have same := writeBatchAt_sameBut (r := r) s.head 0 msgs s
  unfold readable
  rw [same.head, same.tail]
  refine List.map_congr_left fun k member => ?_
  refine readAtAbs_sameBut same ?_ out
  rintro ⟨j, written, here⟩
  exact unread_slot_ne room (List.mem_range.mp member) written here

/-- `push_batch` succeeds if and only if pushing the messages one by one does; both then
leave the same counters and the same readable messages; and if it fails, the counters
and the readable messages are those of before. -/
structure BatchAtomic (r : RingShape) (s : RingMemory) (batch : MessageArray) : Prop where
  accepts : (s.pushBatch r batch).1 = true ↔ (pushEach r batch.msgs s).1 = true
  agrees : (s.pushBatch r batch).1 = true →
    (s.pushBatch r batch).2.head = (pushEach r batch.msgs s).2.head ∧
    (s.pushBatch r batch).2.tail = (pushEach r batch.msgs s).2.tail ∧
    ∀ out, (s.pushBatch r batch).2.readable r out = (pushEach r batch.msgs s).2.readable r out
  refused : (s.pushBatch r batch).1 = false →
    (s.pushBatch r batch).2.head = s.head ∧ (s.pushBatch r batch).2.tail = s.tail ∧
    ∀ out, (s.pushBatch r batch).2.readable r out = s.readable r out

/-- `push_batch` once the test for room has passed. -/
theorem pushBatch_room {s : RingMemory} {batch : MessageArray} (nonempty : 0 < batch.msgs.length)
    (room : sub64 s.head s.tail + batch.msgs.length ≤ r.capacity)
    (sum : add64 (sub64 s.head s.tail) batch.msgs.length =
      sub64 s.head s.tail + batch.msgs.length) : BatchAtomic r s batch := by
  have zero : add64 s.head 0 = s.head := by
    rw [add64, Nat.add_zero, Nat.mod_eq_of_lt s.head_lt]
  have start : s.publishHead (add64 s.head 0) (add64_lt _ _) = s := by simp only [publishHead, zero]
  have singles := pushEach_writeBatchAt (r := r) s.head 0 batch.msgs s (by rw [zero]; exact room)
  rw [start] at singles
  have can : s.canPushBatch r batch.msgs.length = some s.head := by
    rw [canPushBatch, sum, if_neg (Nat.not_lt.mpr room)]
  have call : s.pushBatch r batch =
      if (writeBatchAt r s.head 0 batch.msgs s).1 then
        (true, (writeBatchAt r s.head 0 batch.msgs s).2.publishHead
          (add64 s.head batch.msgs.length) (add64_lt _ _))
      else (false, (writeBatchAt r s.head 0 batch.msgs s).2) := by
    rw [pushBatch, if_neg (Nat.ne_of_gt nonempty), can]
  cases written : (writeBatchAt r s.head 0 batch.msgs s).1 with
  | true =>
    have same := singles.2 written
    simp only [Nat.zero_add] at same
    rw [written, if_pos rfl] at call
    constructor
    · rw [call, singles.1, written]
    · intro _
      rw [call, same]
      exact ⟨rfl, rfl, fun _ => rfl⟩
    · intro impossible
      rw [call] at impossible
      cases impossible
  | false =>
    have hidden := writeBatchAt_sameBut (r := r) s.head 0 batch.msgs s
    rw [written, if_neg Bool.false_ne_true] at call
    constructor
    · rw [call, singles.1, written]
    · intro impossible
      rw [call] at impossible
      cases impossible
    · intro _
      rw [call]
      exact ⟨hidden.head, hidden.tail, readable_unpublished room⟩

/-- Whatever the fill level, wherever the positions wrap, and whichever messages of the
array are too long. -/
theorem batch_push_atomic (r : RingShape) (s : RingMemory) (batch : MessageArray)
    (within : sub64 s.head s.tail ≤ r.capacity) : BatchAtomic r s batch := by
  have small := capacity_small r
  have addressable : batch.msgs.length * 1088 ≤ 2 ^ 64 := batch.addressable
  rcases Nat.eq_zero_or_pos batch.msgs.length with empty | nonempty
  · have none := List.length_eq_zero_iff.mp empty
    have accepted : s.pushBatch r batch = (true, s) := by simp only [pushBatch, empty, if_true]
    have each : pushEach r batch.msgs s = (true, s) := by rw [none]; rfl
    constructor
    · rw [accepted, each]
    · intro _
      rw [accepted, each]
      exact ⟨rfl, rfl, fun _ => rfl⟩
    · intro impossible
      rw [accepted] at impossible
      cases impossible
  · have sum : add64 (sub64 s.head s.tail) batch.msgs.length =
        sub64 s.head s.tail + batch.msgs.length := by
      rw [add64, Nat.mod_eq_of_lt (by omega)]
    rcases Nat.lt_or_ge r.capacity (sub64 s.head s.tail + batch.msgs.length) with full | room
    · have refused : s.pushBatch r batch = (false, s) := by
        rw [pushBatch, if_neg (Nat.ne_of_gt nonempty), canPushBatch, sum, if_pos full]
      have each := pushEach_full batch.msgs s full within
      constructor
      · rw [refused, each]
      · intro impossible
        rw [refused] at impossible
        cases impossible
      · intro _
        rw [refused]
        exact ⟨rfl, rfl, fun _ => rfl⟩
    · exact pushBatch_room nonempty room sum

/-- A ring of four slots whose head has wrapped around, with one unread message. -/
def wrappedRing : RingMemory where
  head := 0
  tail := 2 ^ 64 - 1
  descs := Function.update (fun _ => {}) 3 { slotSeq := 0, seq := 7 }
  payloads := fun _ => 0
  head_lt := by decide
  tail_lt := by decide

/-- A message with an empty payload, then one whose lengths exceed the slot. -/
def longSecond : MessageArray where
  msgs := [{ body := { seq := 8 } }, { body := { seq := 9, keyLen := 1000, valueLen := 89 } }]
  addressable := by decide

/-- The batch is refused after its first slot was written. -/
theorem batch_push_atomic_wrapped :
    (wrappedRing.pushBatch ⟨2, true, by decide⟩ longSecond).1 = false ∧
      ((wrappedRing.pushBatch ⟨2, true, by decide⟩ longSecond).2.descs 0).seq = 8 ∧
      (wrappedRing.pushBatch ⟨2, true, by decide⟩ longSecond).2.head = 0 ∧
      ∀ out, (wrappedRing.pushBatch ⟨2, true, by decide⟩ longSecond).2.readable
        ⟨2, true, by decide⟩ out = wrappedRing.readable ⟨2, true, by decide⟩ out := by
  have atomic := batch_push_atomic ⟨2, true, by decide⟩ wrappedRing longSecond (by decide)
  have refused := atomic.refused rfl
  exact ⟨rfl, rfl, refused.1, refused.2.2⟩

end BandleCxl.Guarantees
