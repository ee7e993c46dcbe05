import BandleCxl.Library.LineCache
import BandleCxl.Library.SharedLocation
import BandleCxl.Library.Transition
import BandleCxl.Source.Slot

/-!
`SpscRingView` with one producer and one consumer thread, one action per load or
store of a counter and per access to a slot. The producer runs `push`,
`push_batch`, or the three calls `broadcast_batch` makes on each ring; the consumer
runs `pop` or `drain_source_ring`. A loaded peer counter may be stale.

Descriptors and counters lie in the coherent region. The payload region is read
through the reader's line cache unless the region is declared coherent. The cache
starts with the lines that `main`'s warm-up reads; nothing on the read path ever
flushes a line.
-/
namespace BandleCxl.Source
open Library

/-- A ring: `Capacity` is a power of two, and its payload slots are one C++ object. -/
structure RingShape where
  bits : Nat
  /-- whether hardware keeps the payload region coherent -/
  coherent : Bool
  addressable : 2 ^ bits * kMaxValueBytes ≤ 2 ^ 64

namespace RingShape

def capacity (r : RingShape) : Nat := 2 ^ r.bits

/-- `abs & MASK`. -/
def slot (r : RingShape) (abs : Nat) : Nat := abs &&& (r.capacity - 1)

end RingShape

theorem slots_addressable : 2 ^ 15 * kMaxValueBytes ≤ 2 ^ 64 := by decide

/-- A ring of `kBandleRingCapacity` slots. -/
def bandleRing (coherent : Bool) : RingShape where
  bits := 15
  coherent := coherent
  addressable := slots_addressable

inductive PushCall where
  | push (msg : BandleMessage)
  /-- `push_batch`, or `can_push_batch`, `write_batch_at` and `publish_head` -/
  | batch (msgs : List BandleMessage)

namespace PushCall

def msgs : PushCall → List BandleMessage
  | .push msg => [msg]
  | .batch msgs => msgs

/-- The test for room on the loaded counters, in 64-bit arithmetic. -/
def HasRoom (capacity h t : Nat) : PushCall → Prop
  | .push _ => ¬ sub64 h t ≥ capacity
  | .batch msgs => ¬ add64 (sub64 h t) msgs.length > capacity

instance (capacity h t : Nat) : (call : PushCall) → Decidable (call.HasRoom capacity h t)
  | .push _ => inferInstanceAs (Decidable (¬ _))
  | .batch _ => inferInstanceAs (Decidable (¬ _))

end PushCall

inductive ProducerPc where
  | idle
  | called (call : PushCall)
  | gotHead (call : PushCall) (h : Nat)
  /-- before the payload store of message `i` -/
  | payload (h : Nat) (msgs : List BandleMessage) (i : Nat)
  /-- before the descriptor store of message `i` -/
  | descriptor (h : Nat) (msgs : List BandleMessage) (i : Nat)
  /-- before the store of the head -/
  | publish (h : Nat) (msgs : List BandleMessage)

inductive PopCall where
  | pop
  | drain (maxBatch : Nat)

/-- How many messages the call asks for. -/
def PopCall.wanted (avail : Nat) : PopCall → Nat
  | .pop => 1
  | .drain maxBatch => min avail maxBatch

/-- `t` is the tail, `count` what the call asks for, `read` what earlier calls of
`read_batch_at_abs` returned, `c` the descriptors accepted by the current one. -/
inductive ConsumerPc where
  | idle
  | called (call : PopCall)
  | gotTail (call : PopCall) (t : Nat)
  /-- descriptor phase, after `tries` mismatches -/
  | descriptor (call : PopCall) (t count read c tries : Nat)
  /-- payload phase, before message `i` -/
  | payload (call : PopCall) (t count read c i : Nat)
  /-- `read_batch_at_abs` has returned -/
  | returned (call : PopCall) (t count read : Nat)
  | commit (t read : Nat)

structure RingHistory where
  published : List BandleMessage := []
  committed : List BandleMessage := []
  /-- messages published, and committed, at each position of the counters' orders -/
  headCount : Nat → Nat := fun _ => 0
  tailCount : Nat → Nat := fun _ => 0

structure SpscRing where
  head : SharedLocation Nat
  tail : SharedLocation Nat
  descs : Nat → BandleDescriptor
  payloads : Mem
  producer : ProducerPc
  consumer : ConsumerPc
  /-- the newest tail the producer, and head the consumer, has loaded -/
  producerSaw : Nat
  consumerSaw : Nat
  /-- the consumer's message buffer -/
  out : Nat → BandleMessage
  cache : LineCache
  hist : RingHistory

inductive RingAction where
  | startPush (call : PushCall)
  | loadHeadOwn
  | loadTailPeer (v : Nat)
  | storePayload
  | storeDescriptor
  | storeHead
  /-- `broadcast_batch` leaves this ring because another one had no room or refused -/
  | abandon
  | startPop (call : PopCall)
  | loadTailOwn
  | loadHeadPeer (v : Nat)
  /-- the flag says whether a prefetch hint takes effect -/
  | readDescriptor (prefetch : Bool)
  | readPayload (prefetch : Bool)
  | retry
  | finish
  | quit
  | storeTail
  /-- the reader's cache drops a line -/
  | evict (line : Nat)

def kRetries : Nat := 64

/-- Lines that `main`'s warm-up loads: the first of every page. -/
def warmCache : LineCache := fun line => if line % 64 = 0 then some fun _ => 0 else none

namespace SpscRing

/-- After `main`'s reset and warm-up. The descriptor and buffer contents do not
matter. -/
def initial (descs : Nat → BandleDescriptor) (out : Nat → BandleMessage) : SpscRing where
  head := .init 0
  tail := .init 0
  descs := descs
  payloads := fun _ => 0
  producer := .idle
  consumer := .idle
  producerSaw := 0
  consumerSaw := 0
  out := out
  cache := warmCache
  hist := {}

section
variable (r : RingShape)

/-! ### Producer -/

/-- An array of messages is a C++ object too, which bounds its length. -/
def startPushStep (s : SpscRing) (call : PushCall) : Option SpscRing :=
  match s.producer with
  | .idle =>
    if call.msgs ≠ [] ∧ call.msgs.length * kMaxValueBytes ≤ 2 ^ 64 then
      some { s with producer := .called call }
    else none
  | _ => none

def loadHeadOwnStep (s : SpscRing) : Option SpscRing :=
  match s.producer with
  | .called call => some { s with producer := .gotHead call s.head.value }
  | _ => none

/-- The load of the tail and the test for room; without room the call returns. -/
def loadTailPeerStep (s : SpscRing) (v : Nat) : Option SpscRing :=
  match s.producer with
  | .gotHead call h =>
    if s.tail.MayLoad s.producerSaw v then
      some { s with
        producerSaw := v
        producer :=
          if call.HasRoom r.capacity h (s.tail.order v) then .payload h call.msgs 0 else .idle }
    else none
  | _ => none

/-- An oversized message makes the call return false. -/
def storePayloadStep (s : SpscRing) : Option SpscRing :=
  match s.producer with
  | .payload h msgs i =>
    match msgs[i]? with
    | some msg =>
      if msg.body.bytes > kMaxValueBytes then some { s with producer := .idle }
      else
        some { s with
          payloads := ntStorePayloadPadded s.payloads (r.slot (add64 h i)) msg.body.data
            msg.body.bytes
          producer := .descriptor h msgs i }
    | none => none
  | _ => none

def storeDescriptorStep (s : SpscRing) : Option SpscRing :=
  match s.producer with
  | .descriptor h msgs i =>
    match msgs[i]? with
    | some msg =>
      some { s with
        descs := Function.update s.descs (r.slot (add64 h i))
          (descriptorOf (add64 (add64 h i) 1) msg)
        producer := if i + 1 < msgs.length then .payload h msgs (i + 1) else .publish h msgs }
    | none => none
  | _ => none

def storeHeadStep (s : SpscRing) : Option SpscRing :=
  match s.producer with
  | .publish h msgs =>
    some { s with
      head := s.head.store (add64 h msgs.length)
      producer := .idle
      hist := { s.hist with
        published := s.hist.published ++ msgs
        headCount := Function.update s.hist.headCount (s.head.latest + 1)
          (s.hist.published.length + msgs.length) } }
  | _ => none

def abandonStep (s : SpscRing) : Option SpscRing :=
  match s.producer with
  | .payload .. | .descriptor .. | .publish .. => some { s with producer := .idle }
  | _ => none

/-! ### Consumer -/

def startPopStep (s : SpscRing) (call : PopCall) : Option SpscRing :=
  match s.consumer with
  | .idle => some { s with consumer := .called call }
  | _ => none

def loadTailOwnStep (s : SpscRing) : Option SpscRing :=
  match s.consumer with
  | .called call => some { s with consumer := .gotTail call s.tail.value }
  | _ => none

def loadHeadPeerStep (s : SpscRing) (v : Nat) : Option SpscRing :=
  match s.consumer with
  | .gotTail call t =>
    if s.head.MayLoad s.consumerSaw v then
      let avail := sub64 (s.head.order v) t
      some { s with
        consumerSaw := v
        consumer := if avail = 0 then .idle else .descriptor call t (call.wanted avail) 0 0 0 }
    else none
  | _ => none

/-- The end of the descriptor phase with `c` accepted descriptors. -/
def afterDescriptors (call : PopCall) (t count read c : Nat) : ConsumerPc :=
  if c = 0 then .returned call t count read else .payload call t count read c 0

/-- Where to go after a descriptor was accepted. -/
def nextDescriptor (call : PopCall) (t count read c : Nat) : ConsumerPc :=
  if read + c < count then .descriptor call t count read c 0
  else .payload call t count read c 0

/-- One attempt of `read_slot_descriptor`. A prefetch loads the slot's first line. -/
def readDescriptorStep (s : SpscRing) (prefetch : Bool) : Option SpscRing :=
  match s.consumer with
  | .descriptor call t count read c tries =>
    if count ≤ read + c then some { s with consumer := afterDescriptors call t count read c }
    else
      let pos := add64 t (read + c)
      let d := s.descs (r.slot pos)
      if d.slotSeq ≠ add64 pos 1 then
        some { s with
          consumer := if tries + 1 < kRetries then .descriptor call t count read c (tries + 1)
            else afterDescriptors call t count read c }
      else if d.bytes > kMaxValueBytes then
        some { s with consumer := afterDescriptors call t count read c }
      else
        some { s with
          out := Function.update s.out (read + c) (fillFrom d (s.out (read + c)))
          cache := if d.bytes ≠ 0 ∧ prefetch = true then
              s.cache.fill s.payloads (r.slot pos * kMaxValueBytes / lineBytes)
            else s.cache
          consumer := nextDescriptor call t count read (c + 1) }
  | _ => none

/-- What the reader sees of the payload region. -/
def visible (s : SpscRing) : Mem := if r.coherent then s.payloads else s.cache.view s.payloads

/-- The copy of message `i`'s bytes and the prefetch of message `i + 8`. -/
def readPayloadStep (s : SpscRing) (prefetch : Bool) : Option SpscRing :=
  match s.consumer with
  | .payload call t count read c i =>
    let pos := add64 t (read + i)
    let msg := s.out (read + i)
    let ahead := add64 t (read + i + 8)
    let cache := if i + 8 < c ∧ (s.out (read + i + 8)).body.bytes ≠ 0 ∧ prefetch = true then
        s.cache.fill s.payloads (r.slot ahead * kMaxValueBytes / lineBytes)
      else s.cache
    let next := if i + 1 < c then ConsumerPc.payload call t count read c (i + 1)
      else .returned call t count (read + c)
    if msg.body.bytes = 0 then some { s with consumer := next }
    else
      some { s with
        out := Function.update s.out (read + i) { msg with body := { msg.body with
          data := msg.body.data.store 0
            ((s.visible r).load (r.slot pos * kMaxValueBytes) msg.body.bytes) } }
        cache := cache.fillRange s.payloads (r.slot pos * kMaxValueBytes) msg.body.bytes
        consumer := next }
  | _ => none

end

/-- `drain_source_ring` reads on while `running_` is set; `pop` does not. -/
def retryStep (s : SpscRing) : Option SpscRing :=
  match s.consumer with
  | .returned (.drain maxBatch) t count read =>
    if read < count then some { s with consumer := .descriptor (.drain maxBatch) t count read 0 0 }
    else none
  | _ => none

def finishStep (s : SpscRing) : Option SpscRing :=
  match s.consumer with
  | .returned _ t count read =>
    if read = count ∧ read ≠ 0 then some { s with consumer := .commit t read } else none
  | _ => none

/-- `running_` was cleared, or `pop` found no descriptor: commit what was read. -/
def quitStep (s : SpscRing) : Option SpscRing :=
  match s.consumer with
  | .returned _ t count read =>
    if read < count then
      some { s with consumer := if read = 0 then .idle else .commit t read }
    else none
  | _ => none

def storeTailStep (s : SpscRing) : Option SpscRing :=
  match s.consumer with
  | .commit t read =>
    some { s with
      tail := s.tail.store (add64 t read)
      consumer := .idle
      hist := { s.hist with
        committed := s.hist.committed ++ (List.range read).map s.out
        tailCount := Function.update s.hist.tailCount (s.tail.latest + 1)
          (s.hist.committed.length + read) } }
  | _ => none

def step (r : RingShape) (s : SpscRing) : RingAction → Option SpscRing
  | .startPush call => s.startPushStep call
  | .loadHeadOwn => s.loadHeadOwnStep
  | .loadTailPeer v => s.loadTailPeerStep r v
  | .storePayload => s.storePayloadStep r
  | .storeDescriptor => s.storeDescriptorStep r
  | .storeHead => s.storeHeadStep
  | .abandon => s.abandonStep
  | .startPop call => s.startPopStep call
  | .loadTailOwn => s.loadTailOwnStep
  | .loadHeadPeer v => s.loadHeadPeerStep v
  | .readDescriptor prefetch => s.readDescriptorStep r prefetch
  | .readPayload prefetch => s.readPayloadStep r prefetch
  | .retry => s.retryStep
  | .finish => s.finishStep
  | .quit => s.quitStep
  | .storeTail => s.storeTailStep
  | .evict line => some { s with cache := s.cache.evict line }

end SpscRing

def ringSystem (r : RingShape) : TransitionSystem SpscRing RingAction where
  init s := ∃ descs out, s = SpscRing.initial descs out
  step := SpscRing.step r

end BandleCxl.Source
