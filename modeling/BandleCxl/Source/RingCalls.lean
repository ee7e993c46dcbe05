import BandleCxl.Source.SpscRing

/-!
The calls of `SpscRingView` as functions on the ring's memory, each run to its end
with the tail as it stands. `SpscRing` interleaves the same accesses with the
consumer's. Fences order stores and have no effect on a single call, so
`wrote_payload`, which only decides on one, is left out.
-/
namespace BandleCxl.Source
open Library

theorem add64_lt (a b : Nat) : add64 a b < 2 ^ 64 := Nat.mod_lt _ (by decide)

/-- The counters are 64-bit words. -/
structure RingMemory where
  head : Nat
  tail : Nat
  descs : Nat → BandleDescriptor
  payloads : Mem
  head_lt : head < 2 ^ 64
  tail_lt : tail < 2 ^ 64

/-- A pointer to messages and their count: an array that fits into the address space. -/
structure MessageArray where
  msgs : List BandleMessage
  addressable : msgs.length * kMaxValueBytes ≤ 2 ^ 64

namespace RingMemory

variable (r : RingShape)

/-- Fill the slot of position `pos`; `none` if the message is too long. -/
def storeAt (s : RingMemory) (pos : Nat) (msg : BandleMessage) : Option RingMemory :=
  if msg.body.bytes > kMaxValueBytes then none
  else
    some { s with
      payloads :=
        if msg.body.bytes ≠ 0 then
          ntStorePayloadPadded s.payloads (r.slot pos) msg.body.data msg.body.bytes
        else s.payloads
      descs := Function.update s.descs (r.slot pos) (descriptorOf (add64 pos 1) msg) }

def publishHead (s : RingMemory) (head : Nat) (lt : head < 2 ^ 64) : RingMemory :=
  { s with head := head, head_lt := lt }

def push (s : RingMemory) (msg : BandleMessage) : Bool × RingMemory :=
  if sub64 s.head s.tail ≥ r.capacity then (false, s)
  else
    match s.storeAt r s.head msg with
    | none => (false, s)
    | some stored => (true, stored.publishHead (add64 s.head 1) (add64_lt _ _))

/-- The loop of `write_batch_at` from message `i` on. -/
def writeBatchAt (head : Nat) : Nat → List BandleMessage → RingMemory → Bool × RingMemory
  | _, [], s => (true, s)
  | i, msg :: rest, s =>
    match s.storeAt r (add64 head i) msg with
    | none => (false, s)
    | some stored => writeBatchAt head (i + 1) rest stored

def canPushBatch (s : RingMemory) (count : Nat) : Option Nat :=
  if add64 (sub64 s.head s.tail) count > r.capacity then none else some s.head

def pushBatch (s : RingMemory) (batch : MessageArray) : Bool × RingMemory :=
  if batch.msgs.length = 0 then (true, s)
  else
    match s.canPushBatch r batch.msgs.length with
    | none => (false, s)
    | some head =>
      let written := writeBatchAt r head 0 batch.msgs s
      if written.1 then
        (true, written.2.publishHead (add64 head batch.msgs.length) (add64_lt _ _))
      else (false, written.2)

/-- A caller that pushes one message after another until one is refused. -/
def pushEach : List BandleMessage → RingMemory → Bool × RingMemory
  | [], s => (true, s)
  | msg :: rest, s =>
    let pushed := s.push r msg
    if pushed.1 then pushEach rest pushed.2 else pushed

/-- `read_at_abs`. Nothing changes between its retries, so one look at the slot decides. -/
def readAtAbs (s : RingMemory) (abs : Nat) (out : BandleMessage) : Option BandleMessage :=
  let d := s.descs (r.slot abs)
  if d.slotSeq ≠ add64 abs 1 then none
  else if d.bytes > kMaxValueBytes then none
  else some (readSlot s.payloads (r.slot abs) d out)

/-- What a consumer can read in `[tail, head)`, position by position. -/
def readable (s : RingMemory) (out : BandleMessage) : List (Option BandleMessage) :=
  (List.range (sub64 s.head s.tail)).map fun k => s.readAtAbs r (add64 s.tail k) out

def setTail (s : RingMemory) (tail : Nat) (lt : tail < 2 ^ 64) : RingMemory :=
  { s with tail := tail, tail_lt := lt }

def isFull (s : RingMemory) : Bool := decide (sub64 s.head s.tail ≥ r.capacity)

def pop (s : RingMemory) (out : BandleMessage) : Option BandleMessage × RingMemory :=
  if s.tail = s.head then (none, s)
  else
    match s.readAtAbs r s.tail out with
    | none => (none, s)
    | some got => (some got, s.setTail (add64 s.tail 1) (add64_lt _ _))

/-- First loop of `read_batch_at_abs`, with `left` turns to go: the number of descriptors
accepted and the buffer. -/
def readDescriptors (s : RingMemory) (abs : Nat) : (left count : Nat) → (Nat → BandleMessage) →
    Nat × (Nat → BandleMessage)
  | 0, count, out => (count, out)
  | left + 1, count, out =>
    let d := s.descs (r.slot (add64 abs count))
    if d.slotSeq ≠ add64 (add64 abs count) 1 then (count, out)
    else if d.bytes > kMaxValueBytes then (count, out)
    else readDescriptors s abs left (count + 1) (Function.update out count (fillFrom d (out count)))

/-- Second loop of `read_batch_at_abs`. -/
def copyPayloads (s : RingMemory) (abs : Nat) : (left i : Nat) → (Nat → BandleMessage) →
    Nat → BandleMessage
  | 0, _, out => out
  | left + 1, i, out =>
    let msg := out i
    copyPayloads s abs left (i + 1)
      (if msg.body.bytes = 0 then out
        else Function.update out i { msg with body := { msg.body with
          data := msg.body.data.store 0
            (s.payloads.load (r.slot (add64 abs i) * kMaxValueBytes) msg.body.bytes) } })

def readBatchAtAbs (s : RingMemory) (abs : Nat) (out : Nat → BandleMessage) (maxCount : Nat) :
    Nat × (Nat → BandleMessage) :=
  let accepted := s.readDescriptors r abs maxCount 0 out
  (accepted.1, s.copyPayloads r abs accepted.1 0 accepted.2)

/-- `drain_source_ring` when nobody else uses the ring: what `tail`, `head`,
`read_batch_at_abs` and `commit_tail` make of it. -/
def drain (s : RingMemory) (out : Nat → BandleMessage) (maxBatch : Nat) :
    List BandleMessage × RingMemory :=
  let count := min (sub64 s.head s.tail) maxBatch
  let got := s.readBatchAtAbs r s.tail out count
  if got.1 = 0 then ([], s)
  else ((List.range got.1).map got.2, s.setTail (add64 s.tail got.1) (add64_lt _ _))

end RingMemory

end BandleCxl.Source
