import BandleCxl.Guarantees.BatchPush
import BandleCxl.Guarantees.RingQueue
import BandleCxl.Invariant.RingAccess
import BandleCxl.Library.Refinement

/-!
The methods of `SpscRingView`, called one after the other in any order, answer as a queue of
bounded length does. The counters may stand anywhere, and wrap around any number of times.
-/
namespace BandleCxl.Guarantees
open Library Source Invariant RingMemory

/-- A call with what it is given; `out` is what the caller's buffer held before. -/
inductive ViewCall where
  | push (msg : BandleMessage)
  | pushBatch (batch : MessageArray)
  | pop (out : BandleMessage)
  | drain (out : Nat → BandleMessage) (maxBatch : Nat)
  | isFull

inductive ViewAnswer where
  | pushed (accepted : Bool)
  | popped (got : Option Wire)
  | drained (got : List Wire)
  | full (full : Bool)

def viewCall (r : RingShape) (s : RingMemory) : ViewCall → RingMemory × ViewAnswer
  | .push msg => ((s.push r msg).2, .pushed (s.push r msg).1)
  | .pushBatch batch => ((s.pushBatch r batch).2, .pushed (s.pushBatch r batch).1)
  | .pop out => ((s.pop r out).2, .popped ((s.pop r out).1.map wire))
  | .drain out maxBatch => ((s.drain r out maxBatch).2, .drained ((s.drain r out maxBatch).1.map wire))
  | .isFull => (s, .full (s.isFull r))

/-- Messages enter if all of them fit. -/
def enter (capacity : Nat) (queue : List Wire) (msgs : List BandleMessage) :
    List Wire × ViewAnswer :=
  if Fits msgs = true ∧ queue.length + msgs.length ≤ capacity then
    (queue ++ msgs.map wire, .pushed true)
  else (queue, .pushed false)

def queueCall (capacity : Nat) (queue : List Wire) : ViewCall → List Wire × ViewAnswer
  | .push msg => enter capacity queue [msg]
  | .pushBatch batch => enter capacity queue batch.msgs
  | .pop _ => (queue.drop 1, .popped queue.head?)
  | .drain _ maxBatch => (queue.drop maxBatch, .drained (queue.take maxBatch))
  | .isFull => (queue, .full (decide (queue.length ≥ capacity)))

variable {r : RingShape} {s stored : RingMemory} {msgs : List BandleMessage} {msg : BandleMessage}

/-- The slots from the tail on hold these messages. -/
def Holds (r : RingShape) (s : RingMemory) (msgs : List BandleMessage) : Prop :=
  ∀ k m, msgs[k]? = some m → SlotHolds r s.descs s.payloads (s.tail + k) m

/-- The unread messages are these, and stand for the queue. -/
structure Unread (r : RingShape) (s : RingMemory) (msgs : List BandleMessage) : Prop where
  length : sub64 s.head s.tail = msgs.length
  within : msgs.length ≤ r.capacity
  holds : Holds r s msgs

/-- The head as a position. -/
theorem Unread.head (h : Unread r s msgs) : s.head = (s.tail + msgs.length) % 2 ^ 64 := by
  have length := h.length
  have headLt := s.head_lt
  have tailLt := s.tail_lt
  unfold sub64 at length
  omega

theorem slot_tail (s : RingMemory) (k : Nat) : r.slot (add64 s.tail k) = (s.tail + k) % r.capacity := by
  have slot := slot_add64 r s.tail k
  rwa [Nat.mod_eq_of_lt s.tail_lt] at slot

theorem slot_mod (p : Nat) : r.slot (p % 2 ^ 64) = p % r.capacity := by
  have slot := slot_add64 r p 0
  rwa [add64, Nat.add_zero, Nat.mod_mod, Nat.add_zero] at slot

theorem SlotHolds.position {descs : Nat → BandleDescriptor} {payloads : Mem} {p q : Nat}
    (h : SlotHolds r descs payloads p msg) (same : q % 2 ^ 64 = p % 2 ^ 64) :
    SlotHolds r descs payloads q msg := by
  have slot : q % r.capacity = p % r.capacity := by rw [← slot_mod, same, slot_mod]
  have next : (q + 1) % 2 ^ 64 = (p + 1) % 2 ^ 64 := by omega
  refine ⟨h.fits, ?_, ?_⟩
  · rw [slot, next]
    exact h.descriptor
  · rw [slot]
    exact h.payload

/-! ### Pushes -/

theorem storeAt_eq_none_iff (r : RingShape) (s : RingMemory) (pos : Nat) (msg : BandleMessage) :
    s.storeAt r pos msg = none ↔ msg.body.bytes > kMaxValueBytes := by
  unfold storeAt
  split
  · next long => simp [long]
  · next fits => simp [fits]

theorem Holds.store (h : Holds r s msgs) (room : msgs.length < r.capacity)
    (success : s.storeAt r ((s.tail + msgs.length) % 2 ^ 64) msg = some stored) :
    Holds r stored (msgs ++ [msg]) := by
  unfold storeAt at success
  split at success
  · cases success
  · next long =>
    have fits : msg.body.bytes ≤ kMaxValueBytes := by omega
    obtain rfl := Option.some.inj success
    intro k m found
    dsimp only
    rw [slot_mod]
    rcases Nat.lt_or_ge k msgs.length with old | new
    · rw [List.getElem?_append_left old] at found
      have apart : (s.tail + k) % r.capacity ≠ (s.tail + msgs.length) % r.capacity :=
        slot_ne (by omega) (by omega)
      have held := (h k m found).storeDescriptor
        (descriptorOf (add64 ((s.tail + msgs.length) % 2 ^ 64) 1) msg) apart
      split
      · exact held.storePayload msg.body.data fits apart
      · exact held
    · have last : k = msgs.length := by
        have inside := (List.getElem?_eq_some_iff.mp found).1
        rw [List.length_append, List.length_singleton] at inside
        omega
      subst last
      rw [List.getElem?_append_right (Nat.le_refl _), Nat.sub_self] at found
      obtain rfl : msg = m := Option.some.inj found
      refine ⟨fits, ?_, ?_⟩
      · rw [Function.update_self, add64_mod]
      · split
        · exact ntStorePayloadPadded_load _ _ _ _
        · next empty =>
          rw [not_not.mp empty]
          rfl

theorem Holds.publishHead (h : Holds r s msgs) (head : Nat) (lt : head < 2 ^ 64) :
    Holds r (s.publishHead head lt) msgs := h

theorem Holds.left {more : List BandleMessage} (h : Holds r s (msgs ++ more)) : Holds r s msgs := by
  intro k m found
  refine h k m ?_
  rw [List.getElem?_append_left (List.getElem?_eq_some_iff.mp found).1]
  exact found

theorem fits_cons (msg : BandleMessage) (rest : List BandleMessage) :
    Fits (msg :: rest) = true ↔ ¬msg.body.bytes > kMaxValueBytes ∧ Fits rest = true := by
  simp [Fits]

/-- The loop of `write_batch_at`, behind the messages that are in the ring. -/
theorem Holds.writeBatchAt {batch : List BandleMessage} {head i : Nat} (h : Holds r s msgs)
    (position : add64 head i = (s.tail + msgs.length) % 2 ^ 64)
    (room : msgs.length + batch.length ≤ r.capacity) :
    (RingMemory.writeBatchAt r head i batch s).1 = Fits batch ∧
      Holds r (RingMemory.writeBatchAt r head i batch s).2
        (msgs ++ if Fits batch = true then batch else []) := by
  induction batch generalizing i s msgs with
  | nil => exact ⟨rfl, by rw [ite_self, List.append_nil]; exact h⟩
  | cons msg rest ih =>
    rw [List.length_cons] at room
    simp only [RingMemory.writeBatchAt]
    cases success : s.storeAt r (add64 head i) msg with
    | none =>
      have long := (storeAt_eq_none_iff ..).mp success
      have refused : ¬Fits (msg :: rest) = true := fun all => ((fits_cons msg rest).mp all).1 long
      rw [if_neg refused, List.append_nil]
      exact ⟨(Bool.eq_false_iff.mpr refused).symm, h⟩
    | some stored =>
      have fits : ¬msg.body.bytes > kMaxValueBytes := by
        rw [← storeAt_eq_none_iff r s (add64 head i), success]
        exact Option.some_ne_none stored
      have tail := (storeAt_sameBut success).tail
      rw [position] at success
      have next := add64_succ head i
      obtain ⟨flag, held⟩ := ih (i := i + 1) (h.store (by omega) success) (by
        rw [← next, position, tail, add64_mod, List.length_append, List.length_singleton,
          Nat.add_assoc]) (by
        rw [List.length_append, List.length_singleton]
        omega)
      have all : Fits (msg :: rest) = Fits rest := by
        rw [Bool.eq_iff_iff, fits_cons]
        exact and_iff_right fits
      rw [all]
      refine ⟨flag, ?_⟩
      rw [List.append_assoc] at held
      by_cases rest_fits : Fits rest = true
      · rw [if_pos rest_fits] at held ⊢
        exact held
      · rw [if_neg rest_fits, ← List.append_assoc] at held
        rw [if_neg rest_fits]
        rw [List.append_nil] at held ⊢
        exact held.left

/-- More messages than before lie between the counters. -/
theorem Unread.grown (h : Unread r s msgs) {more : List BandleMessage}
    (room : msgs.length + more.length ≤ r.capacity) (tail : stored.tail = s.tail)
    (held : Holds r stored (msgs ++ more)) :
    Unread r (stored.publishHead (add64 s.head more.length) (add64_lt _ _)) (msgs ++ more) where
  length := by
    have small := capacity_small r
    have length := h.length
    have headLt := s.head_lt
    have tailLt := s.tail_lt
    simp only [RingMemory.publishHead]
    rw [tail, List.length_append]
    unfold sub64 at length ⊢
    unfold add64
    omega
  within := by rwa [List.length_append]
  holds := held

theorem Unread.pushBatch (h : Unread r s msgs) (batch : MessageArray) :
    ∃ msgs', Unread r (s.pushBatch r batch).2 msgs' ∧
      (msgs'.map wire, ViewAnswer.pushed (s.pushBatch r batch).1) =
        enter r.capacity (msgs.map wire) batch.msgs := by
  have small := capacity_small r
  have within := h.within
  have addressable : batch.msgs.length * 1088 ≤ 2 ^ 64 := batch.addressable
  have zero : add64 s.head 0 = (s.tail + msgs.length) % 2 ^ 64 := by
    rw [add64, Nat.add_zero, Nat.mod_eq_of_lt s.head_lt, h.head]
  unfold enter
  rw [List.length_map]
  by_cases empty : batch.msgs.length = 0
  · have nil := List.length_eq_zero_iff.mp empty
    have accepted : s.pushBatch r batch = (true, s) := by
      rw [RingMemory.pushBatch, if_pos empty]
    have fits : Fits batch.msgs = true := by
      rw [nil]
      rfl
    rw [if_pos ⟨fits, by omega⟩, accepted]
    refine ⟨msgs, h, ?_⟩
    rw [nil, List.map_nil, List.append_nil]
  · have sum : add64 (sub64 s.head s.tail) batch.msgs.length = msgs.length + batch.msgs.length := by
      rw [h.length, add64, Nat.mod_eq_of_lt (by omega)]
    by_cases room : msgs.length + batch.msgs.length ≤ r.capacity
    · obtain ⟨flag, held⟩ := h.holds.writeBatchAt zero room
      have same := writeBatchAt_sameBut (r := r) s.head 0 batch.msgs s
      have can : s.canPushBatch r batch.msgs.length = some s.head := by
        rw [canPushBatch, sum, if_neg (by omega)]
      have call : s.pushBatch r batch =
          if (RingMemory.writeBatchAt r s.head 0 batch.msgs s).1 then
            (true, (RingMemory.writeBatchAt r s.head 0 batch.msgs s).2.publishHead
              (add64 s.head batch.msgs.length) (add64_lt _ _))
          else (false, (RingMemory.writeBatchAt r s.head 0 batch.msgs s).2) := by
        rw [RingMemory.pushBatch, if_neg empty, can]
      rw [call, flag]
      by_cases fits : Fits batch.msgs = true
      · rw [if_pos fits] at held
        rw [if_pos fits, if_pos ⟨fits, room⟩, ← List.map_append]
        exact ⟨msgs ++ batch.msgs, h.grown room same.tail held, rfl⟩
      · rw [if_neg fits, List.append_nil] at held
        rw [if_neg fits, if_neg (fun both => fits both.1)]
        refine ⟨msgs, ⟨?_, within, held⟩, rfl⟩
        rw [same.head, same.tail]
        exact h.length
    · have cannot : s.canPushBatch r batch.msgs.length = none := by
        rw [canPushBatch, sum, if_pos (by omega)]
      have refused : s.pushBatch r batch = (false, s) := by
        rw [RingMemory.pushBatch, if_neg empty, cannot]
      rw [if_neg (fun both => room both.2), refused]
      exact ⟨msgs, h, rfl⟩

theorem Unread.push (h : Unread r s msgs) (msg : BandleMessage) :
    ∃ msgs', Unread r (s.push r msg).2 msgs' ∧
      (msgs'.map wire, ViewAnswer.pushed (s.push r msg).1) =
        enter r.capacity (msgs.map wire) [msg] := by
  unfold enter
  rw [List.length_map, List.length_singleton]
  by_cases room : msgs.length + 1 ≤ r.capacity
  · have free : ¬sub64 s.head s.tail ≥ r.capacity := by
      rw [h.length]
      omega
    cases success : s.storeAt r s.head msg with
    | none =>
      have long := (storeAt_eq_none_iff ..).mp success
      have refused : ¬Fits [msg] = true := fun all => ((fits_cons msg []).mp all).1 long
      rw [if_neg (fun both => refused both.1), push_none success]
      exact ⟨msgs, h, rfl⟩
    | some stored =>
      have fits : ¬msg.body.bytes > kMaxValueBytes := by
        rw [← storeAt_eq_none_iff r s s.head, success]
        exact nofun
      rw [if_pos ⟨(fits_cons msg []).mpr ⟨fits, rfl⟩, room⟩, push_some (by omega) success,
        ← List.map_append]
      have tail := (storeAt_sameBut success).tail
      rw [h.head] at success
      have held := h.holds.store (by omega) success
      exact ⟨msgs ++ [msg], h.grown (show msgs.length + [msg].length ≤ r.capacity from room) tail held,
        rfl⟩
  · have full : sub64 s.head s.tail ≥ r.capacity := by
      rw [h.length]
      omega
    rw [if_neg (fun both => room both.2)]
    simp only [RingMemory.push, if_pos full]
    exact ⟨msgs, h, rfl⟩

/-! ### Reads -/

theorem Unread.shrunk (h : Unread r s msgs) {count : Nat} (inside : count ≤ msgs.length) :
    Unread r (s.setTail (add64 s.tail count) (add64_lt _ _)) (msgs.drop count) where
  length := by
    have small := capacity_small r
    have within := h.within
    have length := h.length
    have headLt := s.head_lt
    have tailLt := s.tail_lt
    simp only [RingMemory.setTail, List.length_drop]
    unfold sub64 at length ⊢
    unfold add64
    omega
  within := by
    have within := h.within
    rw [List.length_drop]
    omega
  holds := by
    intro k m found
    rw [List.getElem?_drop] at found
    refine SlotHolds.position (h.holds (count + k) m found) ?_
    simp only [RingMemory.setTail, add64]
    omega

/-- A descriptor that is looked at is the one of the message. -/
theorem Holds.descriptor (h : Holds r s msgs) {k : Nat} {m : BandleMessage}
    (found : msgs[k]? = some m) :
    s.descs (r.slot (add64 s.tail k)) = descriptorOf (add64 (add64 s.tail k) 1) m ∧
      ¬(s.descs (r.slot (add64 s.tail k))).bytes > kMaxValueBytes := by
  have held := h k m found
  have same : s.descs (r.slot (add64 s.tail k)) = descriptorOf (add64 (add64 s.tail k) 1) m := by
    rw [slot_tail, held.descriptor]
    congr 1
    unfold add64
    omega
  rw [same]
  exact ⟨rfl, Nat.not_lt.mpr held.fits⟩

theorem Holds.payload (h : Holds r s msgs) {k : Nat} {m : BandleMessage} (found : msgs[k]? = some m) :
    s.payloads.load (r.slot (add64 s.tail k) * kMaxValueBytes) m.body.bytes =
      m.body.data.load 0 m.body.bytes := by
  rw [slot_tail]
  exact (h k m found).payload

theorem Holds.readAtAbs (h : Holds r s msgs) {m : BandleMessage} (found : msgs[0]? = some m)
    (out : BandleMessage) : ∃ got, s.readAtAbs r s.tail out = some got ∧ SameMessage m got := by
  have zero : add64 s.tail 0 = s.tail := by
    rw [add64, Nat.add_zero, Nat.mod_eq_of_lt s.tail_lt]
  have descriptor := h.descriptor found
  have payload := h.payload found
  rw [zero] at descriptor payload
  refine ⟨_, ?_, (SameHeader.fill m out (add64 s.tail 1)).copy payload⟩
  simp only [RingMemory.readAtAbs]
  rw [if_neg (not_not.mpr (by rw [descriptor.1]; rfl)), if_neg descriptor.2, descriptor.1]
  rfl

/-- The first loop accepts every descriptor up to the messages there are. -/
theorem Holds.readDescriptors (h : Holds r s msgs) (left count : Nat) (out : Nat → BandleMessage)
    (inside : count + left ≤ msgs.length)
    (before : ∀ k m, k < count → msgs[k]? = some m → SameHeader m (out k)) :
    (s.readDescriptors r s.tail left count out).1 = count + left ∧
      ∀ k m, k < count + left → msgs[k]? = some m →
        SameHeader m ((s.readDescriptors r s.tail left count out).2 k) := by
  induction left generalizing count out with
  | zero => exact ⟨rfl, before⟩
  | succ left ih =>
    have found := List.getElem?_eq_getElem (show count < msgs.length by omega)
    have descriptor := h.descriptor found
    simp only [RingMemory.readDescriptors]
    rw [if_neg (not_not.mpr (by rw [descriptor.1]; rfl)), if_neg descriptor.2]
    have later := ih (count + 1)
      (Function.update out count (fillFrom (s.descs (r.slot (add64 s.tail count))) (out count)))
      (by omega) (by
        intro k m below here
        rcases Nat.lt_succ_iff_lt_or_eq.mp below with lt | rfl
        · rw [Function.update_of_ne (Nat.ne_of_lt lt)]
          exact before k m lt here
        · rw [found] at here
          obtain rfl := Option.some.inj here
          rw [Function.update_self, descriptor.1]
          exact SameHeader.fill ..)
    rw [Nat.add_right_comm, Nat.add_assoc] at later
    exact later

/-- The second loop completes the messages. -/
theorem Holds.copyPayloads (h : Holds r s msgs) (left i : Nat) (out : Nat → BandleMessage)
    (inside : i + left ≤ msgs.length)
    (done : ∀ k m, k < i → msgs[k]? = some m → SameMessage m (out k))
    (coming : ∀ k m, i ≤ k → k < i + left → msgs[k]? = some m → SameHeader m (out k)) :
    ∀ k m, k < i + left → msgs[k]? = some m →
      SameMessage m (s.copyPayloads r s.tail left i out k) := by
  induction left generalizing i out with
  | zero => exact done
  | succ left ih =>
    have found := List.getElem?_eq_getElem (show i < msgs.length by omega)
    have header := coming i _ (Nat.le_refl i) (by omega) found
    have payload := h.payload found
    simp only [RingMemory.copyPayloads]
    rw [← Nat.add_assoc, Nat.add_right_comm]
    refine ih (i + 1) _ (by omega) ?_ ?_
    · intro k m below here
      rcases Nat.lt_succ_iff_lt_or_eq.mp below with lt | rfl
      · split
        · exact done k m lt here
        · rw [Function.update_of_ne (Nat.ne_of_lt lt)]
          exact done k m lt here
      · rw [found] at here
        obtain rfl := Option.some.inj here
        split
        · next empty =>
          have none : msgs[k].body.bytes = 0 := by rw [← header.bytes, empty]
          exact header.message (by rw [none]; rfl)
        · rw [Function.update_self]
          exact header.copy payload
    · intro k m above below here
      have old := coming k m (by omega) (by omega) here
      split
      · exact old
      · rw [Function.update_of_ne (by omega)]
        exact old

theorem map_wire_eq_take {got : Nat → BandleMessage} {count : Nat} (inside : count ≤ msgs.length)
    (same : ∀ k m, k < count → msgs[k]? = some m → SameMessage m (got k)) :
    ((List.range count).map got).map wire = (msgs.map wire).take count := by
  apply List.ext_getElem
  · simp [inside]
  · intro k below below'
    have lt : k < count := by simpa using below
    have found := List.getElem?_eq_getElem (show k < msgs.length by omega)
    simp only [List.getElem_map, List.getElem_range, List.getElem_take]
    exact wire_eq (same k _ lt found)

theorem Unread.pop (h : Unread r s msgs) (out : BandleMessage) :
    Unread r (s.pop r out).2 (msgs.drop 1) ∧ (s.pop r out).1.map wire = (msgs.map wire).head? := by
  cases msgs with
  | nil =>
    have same : s.tail = s.head := by
      have head := h.head
      rw [List.length_nil, Nat.add_zero, Nat.mod_eq_of_lt s.tail_lt] at head
      exact head.symm
    simp only [RingMemory.pop, if_pos same]
    exact ⟨h, rfl⟩
  | cons m rest =>
    have differ : s.tail ≠ s.head := by
      intro same
      have length := h.length
      rw [same, List.length_cons] at length
      unfold sub64 at length
      omega
    obtain ⟨got, read, same⟩ := h.holds.readAtAbs (m := m) rfl out
    simp only [RingMemory.pop, if_neg differ, read]
    exact ⟨h.shrunk (by simp), by rw [Option.map_some, wire_eq same]; rfl⟩

theorem Unread.drain (h : Unread r s msgs) (out : Nat → BandleMessage) (maxBatch : Nat) :
    Unread r (s.drain r out maxBatch).2 (msgs.drop maxBatch) ∧
      (s.drain r out maxBatch).1.map wire = (msgs.map wire).take maxBatch := by
  have inside : min msgs.length maxBatch ≤ msgs.length := Nat.min_le_left _ _
  obtain ⟨count, headers⟩ := h.holds.readDescriptors (min msgs.length maxBatch) 0 out
    (by omega) nofun
  rw [Nat.zero_add] at count headers
  have same := h.holds.copyPayloads (min msgs.length maxBatch) 0 _ (by omega) nofun
    fun k m _ below found => headers k m (by omega) found
  rw [Nat.zero_add] at same
  have taken := map_wire_eq_take inside same
  have first : (msgs.map wire).take maxBatch = (msgs.map wire).take (min msgs.length maxBatch) := by
    rw [List.take_eq_take_min, List.length_map, Nat.min_comm]
  have rest : msgs.drop maxBatch = msgs.drop (min msgs.length maxBatch) := by
    rw [List.drop_eq_drop_min, Nat.min_comm]
  rw [first, rest]
  simp only [RingMemory.drain, RingMemory.readBatchAtAbs, h.length, count]
  split
  · next none =>
    rw [none, List.range_zero] at taken
    rw [none]
    exact ⟨h, taken⟩
  · exact ⟨h.shrunk inside, taken⟩

/-! ### The queue -/

/-- A drain, whatever it was computed from. -/
theorem queueCall_drained {got : List BandleMessage × RingMemory} (out : Nat → BandleMessage)
    {maxBatch : Nat} (stands : Unread r got.2 (msgs.drop maxBatch))
    (answer : got.1.map wire = (msgs.map wire).take maxBatch) :
    ∃ msgs', Unread r (got.2, ViewAnswer.drained (got.1.map wire)).1 msgs' ∧
      queueCall r.capacity (msgs.map wire) (.drain out maxBatch) =
        (msgs'.map wire, (got.2, ViewAnswer.drained (got.1.map wire)).2) := by
  refine ⟨msgs.drop maxBatch, stands, ?_⟩
  rw [queueCall, answer, List.map_drop]

/-- One call. -/
theorem Unread.call (h : Unread r s msgs) (call : ViewCall) :
    ∃ msgs', Unread r (viewCall r s call).1 msgs' ∧
      queueCall r.capacity (msgs.map wire) call = (msgs'.map wire, (viewCall r s call).2) := by
  cases call with
  | push msg =>
    obtain ⟨msgs', stands, same⟩ := h.push msg
    exact ⟨msgs', stands, same.symm⟩
  | pushBatch batch =>
    obtain ⟨msgs', stands, same⟩ := h.pushBatch batch
    exact ⟨msgs', stands, same.symm⟩
  | pop out =>
    obtain ⟨stands, answer⟩ := h.pop out
    rw [viewCall, queueCall]
    exact ⟨msgs.drop 1, stands, by rw [answer, List.map_drop]⟩
  | drain out maxBatch =>
    obtain ⟨stands, answer⟩ := h.drain out maxBatch
    rw [viewCall]
    exact queueCall_drained out stands answer
  | isFull =>
    rw [viewCall, queueCall, RingMemory.isFull, h.length, List.length_map]
    exact ⟨msgs, h, rfl⟩

theorem view_simulates (r : RingShape) :
    Simulates (fun s queue => ∃ msgs, Unread r s msgs ∧ queue = msgs.map wire) (viewCall r)
      (queueCall r.capacity) := by
  rintro s queue call ⟨msgs, h, rfl⟩
  obtain ⟨msgs', stands, same⟩ := h.call call
  rw [same]
  exact ⟨⟨msgs', stands, rfl⟩, rfl⟩

/-- From an empty ring, wherever its counters stand and whatever its memory holds, every list
of calls gets the answers of a queue of the ring's capacity, and leaves as many messages
between the counters as in that queue. -/
theorem ring_view_as_queue (r : RingShape) (s : RingMemory) (empty : s.head = s.tail)
    (calls : List ViewCall) :
    (runCalls (viewCall r) s calls).2 = (runCalls (queueCall r.capacity) [] calls).2 ∧
      sub64 (runCalls (viewCall r) s calls).1.head (runCalls (viewCall r) s calls).1.tail =
        (runCalls (queueCall r.capacity) [] calls).1.length := by
  have start : Unread r s [] := by
    refine ⟨?_, Nat.zero_le _, nofun⟩
    rw [empty, sub64, Nat.add_sub_cancel_left]
    rfl
  obtain ⟨⟨msgs, stands, queue⟩, answers⟩ := (view_simulates r).run ⟨[], start, rfl⟩ calls
  rw [List.map_nil] at queue answers
  refine ⟨answers, ?_⟩
  rw [queue, List.length_map]
  exact stands.length

/-- A ring of four slots that is about to wrap around. -/
def ringBeforeWrap : RingMemory where
  head := 2 ^ 64 - 2
  tail := 2 ^ 64 - 2
  descs := fun _ => {}
  payloads := fun _ => 0
  head_lt := by decide
  tail_lt := by decide

def numberedKey : BandleMessage where
  body := { seq := 8, op := opP, keyLen := 1, data := fun _ => 9 }

/-- A batch is refused for its second message, and a push while the ring is full. -/
def pushesAndPops : List ViewCall :=
  [.push numberedKey, .pushBatch longSecond, .push oneByteKey, .pop oneByteKey, .push oneByteKey,
    .push oneByteKey, .push numberedKey, .isFull, .push oneByteKey, .pop oneByteKey,
    .push oneByteKey, .drain (fun _ => oneByteKey) 3, .pop oneByteKey, .pop oneByteKey]

/-- The six messages that went in were in slots 2, 3, 0, 1, 2 and 3, and the head has passed
`2 ^ 64`. -/
theorem ring_view_as_queue_wrapping :
    (runCalls (viewCall ⟨2, true, by decide⟩) ringBeforeWrap pushesAndPops).1.head = 4 ∧
    (runCalls (viewCall ⟨2, true, by decide⟩) ringBeforeWrap pushesAndPops).2 =
      (runCalls (queueCall 4) [] pushesAndPops).2 ∧
    (runCalls (queueCall 4) [] pushesAndPops).2 =
      [.pushed true, .pushed false, .pushed true, .popped (some (wire numberedKey)), .pushed true,
        .pushed true, .pushed true, .full true, .pushed false, .popped (some (wire oneByteKey)),
        .pushed true, .drained [wire oneByteKey, wire oneByteKey, wire numberedKey],
        .popped (some (wire oneByteKey)), .popped none] :=
  ⟨rfl, (ring_view_as_queue ⟨2, true, by decide⟩ ringBeforeWrap rfl pushesAndPops).1, rfl⟩

end BandleCxl.Guarantees
