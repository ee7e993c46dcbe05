import BandleCxl.Guarantees.RingFifo
import BandleCxl.Invariant.RingContents
import BandleCxl.Library.BoundedQueue
import BandleCxl.Library.Simulation

/-!
A coherent ring between one producer and one consumer, running at the same time, refines a FIFO
queue of the ring's capacity. A push takes effect when the head is stored, with all its messages
at once, and a read when the tail is; everything else that the two threads do cannot be seen.
-/
namespace BandleCxl.Guarantees
open Library Source Invariant

/-- What a ring carries of a message: the fields of its descriptor and its payload bytes. -/
abbrev Wire := BandleDescriptor × Bytes

def wire (m : BandleMessage) : Wire := (descriptorOf 0 m, m.body.data.load 0 m.body.bytes)

theorem wire_eq {sent got : BandleMessage} (same : SameMessage sent got) : wire got = wire sent := by
  have header : descriptorOf 0 got = descriptorOf 0 sent := by
    simp only [descriptorOf, same.type, same.seq, same.round, same.sender, same.proposer,
      same.clientReqId, same.startTsc, same.value, same.promise, same.op, same.keyLen, same.valueLen]
  have data := same.data
  rw [wire, wire, header, SameHeader.bytes header]
  exact congrArg (Prod.mk _) data

theorem map_wire_eq {sent got : List BandleMessage} (same : List.Forall₂ SameMessage sent got) :
    got.map wire = sent.map wire := by
  induction same with
  | nil => rfl
  | cons first _ rest => rw [List.map_cons, List.map_cons, wire_eq first, rest]

/-- The ring as a queue: what the unread messages carry. -/
def contents (s : SpscRing) : List Wire := (unread s).map wire

/-- Only the two stores of a counter show. -/
def queueEvent (s : SpscRing) : RingAction → Option (QueueEvent Wire)
  | .storeHead =>
    match s.producer with
    | .publish _ msgs => some (.enqueue (msgs.map wire))
    | _ => none
  | .storeTail =>
    match s.consumer with
    | .commit _ read => some (.dequeue ((List.range read).map fun k => wire (s.out k)))
    | _ => none
  | _ => none

variable {r : RingShape} {s t : SpscRing}

/-- Every other step leaves the history alone. -/
theorem hist_frame {a : RingAction} (head : a ≠ .storeHead) (tail : a ≠ .storeTail)
    (stepped : s.step r a = some t) : t.hist = s.hist := by
  cases a with
  | storeHead => exact absurd rfl head
  | storeTail => exact absurd rfl tail
  | _ =>
    simp only [SpscRing.step, SpscRing.startPushStep, SpscRing.loadHeadOwnStep,
      SpscRing.loadTailPeerStep, SpscRing.storePayloadStep, SpscRing.storeDescriptorStep,
      SpscRing.abandonStep, SpscRing.startPopStep, SpscRing.loadTailOwnStep,
      SpscRing.loadHeadPeerStep, SpscRing.readDescriptorStep, SpscRing.readPayloadStep,
      SpscRing.retryStep, SpscRing.finishStep, SpscRing.quitStep] at stepped
    repeat' split at stepped
    all_goals cases stepped <;> rfl

theorem contents_length (s : SpscRing) :
    (contents s).length = s.hist.published.length - s.hist.committed.length := by
  rw [contents, List.length_map, unread_length]

theorem enqueues (h : RingInv r s) (stepped : s.storeHeadStep = some t) :
    ∃ msgs : List BandleMessage, queueEvent s .storeHead = some (.enqueue (msgs.map wire)) ∧
      contents t = contents s ++ msgs.map wire ∧
      (contents s).length + msgs.length ≤ r.capacity := by
  unfold SpscRing.storeHeadStep at stepped
  split at stepped
  · next head msgs here =>
    have published : t.hist.published = s.hist.published ++ msgs := by cases stepped; rfl
    have committed : t.hist.committed = s.hist.committed := by cases stepped; rfl
    have inv := h.producer
    rw [here] at inv
    have room := inv.1.room
    have seen := h.seenTail_le
    have occupied := h.occupancy
    refine ⟨msgs, by rw [queueEvent, here], ?_, ?_⟩
    · rw [contents, unread_grown h published committed, List.map_append]
      rfl
    · rw [contents_length s]
      omega
  · cases stepped

theorem dequeues (h : RingInv r s) (stepped : s.storeTailStep = some t) :
    ∃ read items, queueEvent s .storeTail = some (.dequeue items) ∧
      (contents s).take read = items ∧ read ≤ (contents s).length ∧
      contents t = (contents s).drop read := by
  unfold SpscRing.storeTailStep at stepped
  split at stepped
  · next tail read here =>
    have published : t.hist.published = s.hist.published := by cases stepped; rfl
    have committed : t.hist.committed = s.hist.committed ++ (List.range read).map s.out := by
      cases stepped; rfl
    obtain ⟨inside, same⟩ := taken_same h here
    refine ⟨read, _, by rw [queueEvent, here], ?_, ?_, ?_⟩
    · rw [contents, ← List.map_take, ← map_wire_eq same, List.map_map]
      rfl
    · rw [contents, List.length_map]
      exact inside
    · rw [contents, unread_shrunk published committed, List.length_map, List.length_range,
        List.map_drop]
      rfl
  · cases stepped

theorem ring_refines (r : RingShape) (coherent : r.coherent = true) :
    (ringSystem r).Refines (boundedQueue Wire r.capacity) queueEvent
      fun s queue => RingInv r s ∧ queue = contents s where
  start := by
    rintro s ⟨descs, out, rfl⟩
    exact ⟨[], rfl, .initial descs out, rfl⟩
  silent := by
    rintro s a t queue ⟨inv, rfl⟩ stepped silent
    have kept := inv.step (Or.inl coherent) stepped
    refine ⟨kept, ?_⟩
    have same : t.hist = s.hist := by
      refine hist_frame ?_ ?_ stepped
      · rintro rfl
        obtain ⟨msgs, shown, -⟩ := enqueues inv stepped
        rw [silent] at shown
        cases shown
      · rintro rfl
        obtain ⟨read, items, shown, -⟩ := dequeues inv stepped
        rw [silent] at shown
        cases shown
    rw [contents, contents, unread, unread, same]
  shows := by
    rintro s a t queue e ⟨inv, rfl⟩ stepped shown
    have kept := inv.step (Or.inl coherent) stepped
    cases a with
    | storeHead =>
      obtain ⟨msgs, enqueue, after, room⟩ := enqueues inv stepped
      rw [shown] at enqueue
      obtain rfl := Option.some.inj enqueue
      exact ⟨_, queueStep_enqueue (by rwa [List.length_map]), kept, after.symm⟩
    | storeTail =>
      obtain ⟨read, items, dequeue, first, inside, after⟩ := dequeues inv stepped
      rw [shown] at dequeue
      obtain rfl := Option.some.inj dequeue
      exact ⟨_, queueStep_dequeue r.capacity first inside, kept, after.symm⟩
    | _ => cases shown

/-! ### What the two threads find out -/

/-- The test for room, with the tail as it was when `v` was stored. -/
theorem hasRoom_iff (h : RingInv r s) {call : PushCall} {head v : Nat}
    (here : s.producer = .gotHead call head) (may : s.tail.MayLoad s.producerSaw v) :
    call.HasRoom r.capacity head (s.tail.order v) ↔
      s.hist.published.length - s.hist.tailCount v + call.msgs.length ≤ r.capacity := by
  have inv := h.producer
  rw [here] at inv
  obtain ⟨⟨-, short⟩, rfl⟩ := inv
  obtain ⟨value, newer, now⟩ := h.tail.loaded may
  have lead := h.lead
  have small := capacity_small r
  have occupied := h.occupancy
  have near : s.hist.published.length - s.hist.tailCount v < 2 ^ 64 := by omega
  have distance := sub64_mod (p := s.hist.published.length) (q := s.hist.tailCount v)
    (by omega) near
  rw [value]
  cases call with
  | push msg =>
    simp only [PushCall.HasRoom, PushCall.msgs, List.length_singleton]
    rw [distance]
    omega
  | batch msgs =>
    have bound : msgs.length * 1088 ≤ 2 ^ 64 := short
    simp only [PushCall.HasRoom, PushCall.msgs, add64]
    rw [distance, Nat.mod_eq_of_lt (by omega)]
    omega

theorem available_eq (h : RingInv r s) {call : PopCall} {tail v : Nat}
    (here : s.consumer = .gotTail call tail) (may : s.head.MayLoad s.consumerSaw v) :
    sub64 (s.head.order v) tail = s.hist.headCount v - s.hist.committed.length := by
  have inv := h.consumer
  rw [here] at inv
  obtain ⟨value, newer, now⟩ := h.head.loaded may
  have behind := h.behind
  have small := capacity_small r
  have occupied := h.occupancy
  rw [value, show tail = _ from inv]
  exact sub64_mod (by omega) (by omega)

/-- Every run of a coherent ring shows a run of the bounded queue that ends with the messages
between the two counters. A producer that finds room has it in the queue, and one that sees the
newest tail finds room exactly if there is some; a reader never finds more messages than the queue
holds, and finds all of them if it sees the newest head. -/
theorem ring_refines_queue (r : RingShape) (coherent : r.coherent = true) (s₀ s : SpscRing)
    (start : (ringSystem r).init s₀) (schedule : List RingAction)
    (ran : (ringSystem r).run s₀ schedule = some s) :
    (boundedQueue Wire r.capacity).run [] ((ringSystem r).events queueEvent s₀ schedule) =
      some (contents s) ∧
    (∀ call head v, s.producer = .gotHead call head → s.tail.MayLoad s.producerSaw v →
      (call.HasRoom r.capacity head (s.tail.order v) →
        (contents s).length + call.msgs.length ≤ r.capacity) ∧
      (v = s.tail.latest → (contents s).length + call.msgs.length ≤ r.capacity →
        call.HasRoom r.capacity head (s.tail.order v))) ∧
    (∀ call tail v, s.consumer = .gotTail call tail → s.head.MayLoad s.consumerSaw v →
      sub64 (s.head.order v) tail ≤ (contents s).length ∧
      (v = s.head.latest → sub64 (s.head.order v) tail = (contents s).length)) := by
  obtain ⟨empty, rfl, related⟩ := (ring_refines r coherent).start s₀ start
  obtain ⟨queue, taken, inv, rfl⟩ := (ring_refines r coherent).run related ran
  refine ⟨taken, fun call head v here may => ?_, fun call tail v here may => ?_⟩
  · rw [hasRoom_iff inv here may, contents_length]
    have loaded := inv.tail.loaded may
    refine ⟨fun room => by omega, ?_⟩
    rintro rfl room
    rw [inv.tail.newest]
    exact room
  · rw [available_eq inv here may, contents_length]
    have loaded := inv.head.loaded may
    refine ⟨by omega, ?_⟩
    rintro rfl
    rw [inv.head.newest]

/-- One message goes in and comes out. -/
theorem ring_refines_queue_pushThenDrain :
    ∃ s, (ringSystem (bandleRing true)).run freshRing pushThenDrain = some s ∧
      (boundedQueue Wire 32768).run [] ((ringSystem (bandleRing true)).events queueEvent freshRing
        pushThenDrain) = some (contents s) ∧ contents s = [] := by
  refine ⟨_, rfl, ?_, rfl⟩
  exact (ring_refines_queue (bandleRing true) rfl freshRing _ (freshRing_start _) pushThenDrain
    rfl).1

end BandleCxl.Guarantees
