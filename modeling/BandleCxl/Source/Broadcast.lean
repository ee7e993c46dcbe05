import BandleCxl.Source.Cluster
import BandleCxl.Source.RingCalls
import BandleCxl.Source.SpscRing

/-!
The sending side of one node: any number of threads in `broadcast` and `broadcast_batch`
(`src/bandle.cpp`), the mutex `send_mu_`, and the rings to the two peers, each drained at the
same time by its reader. One action is an operation on the mutex, a load of `running_`, or one
access to a ring; inside a call on a ring the thread stands where the ring's producer stands.

`drain_outbox` and `propose_noop` call `broadcast`, one message after another. `stop` clears
`running_` for good.
-/
namespace BandleCxl.Source
open Library

inductive SendCall where
  | broadcast (msg : BandleMessage)
  | broadcastBatch (batch : MessageArray)

def SendCall.msgs : SendCall → List BandleMessage
  | .broadcast msg => [msg]
  | .broadcastBatch batch => batch.msgs

/-- `todo` are the peers that the loop over the peers has not dealt with. -/
inductive SendPc where
  | outside
  /-- before `send_mu_` is locked -/
  | entered (call : SendCall)
  /-- `broadcast_batch` at `while (running_)` -/
  | batchTop (batch : MessageArray)
  /-- in `can_push_batch` -/
  | asking (batch : MessageArray) (todo : List NodeId)
  /-- in `write_batch_at` -/
  | writing (batch : MessageArray) (todo : List NodeId)
  /-- before `publish_head` -/
  | publishing (batch : MessageArray) (todo : List NodeId)
  /-- `send_to_peer` at `while (running_ && ...)` -/
  | pushTop (msg : BandleMessage) (todo : List NodeId)
  /-- in `push` -/
  | pushing (msg : BandleMessage) (todo : List NodeId)
  /-- before `send_mu_` is unlocked -/
  | leaving

structure SendSide (ι : Type*) where
  running : Bool
  /-- who holds `send_mu_` -/
  owner : Option ι
  pc : ι → SendPc
  ring : NodeId → SpscRing
  /-- history: the messages of each call that published a head, in the order of the first heads -/
  log : List (ι × List BandleMessage)
  /-- history: the calls in the order in which they took `send_mu_` -/
  locked : List (ι × List BandleMessage)
  /-- history: what each thread asked to send -/
  calls : ι → List (List BandleMessage)

inductive SendAction (ι : Type*) where
  | call (t : ι) (call : SendCall)
  | lock (t : ι)
  | loadRunning (t : ι)
  /-- `v` is the tail that the thread sees, if it is about to load one -/
  | access (t : ι) (v : Nat)
  | unlock (t : ι)
  | stop
  /-- a step of the ring's reader -/
  | consume (peer : NodeId) (a : RingAction)

def RingAction.isConsumer : RingAction → Bool
  | .startPop _ | .loadTailOwn | .loadHeadPeer _ | .readDescriptor _ | .readPayload _ | .retry
  | .finish | .quit | .storeTail | .evict _ => true
  | _ => false

def ProducerPc.publishes : ProducerPc → Bool
  | .publish .. => true
  | _ => false

/-- The next access of the producer's call; `call` is the one it makes if it is in none. -/
def SpscRing.access (r : RingShape) (s : SpscRing) (call : PushCall) (v : Nat) : Option SpscRing :=
  match s.producer with
  | .idle => s.startPushStep call
  | .called _ => s.loadHeadOwnStep
  | .gotHead .. => s.loadTailPeerStep r v
  | .payload .. => s.storePayloadStep r
  | .descriptor .. => s.storeDescriptorStep r
  | .publish .. => s.storeHeadStep

namespace SendSide

variable {ι : Type*} [DecidableEq ι]

def setPc (s : SendSide ι) (t : ι) (pc : SendPc) : SendSide ι :=
  { s with pc := Function.update s.pc t pc }

def setRing (s : SendSide ι) (peer : NodeId) (ring : SpscRing) : SendSide ι :=
  { s with ring := Function.update s.ring peer ring }

/-- The return from `broadcast_batch`, or the next round of its loop: what was written to
slots stays there unpublished. -/
def abandonRings (s : SendSide ι) : SendSide ι :=
  { s with ring := fun peer => (s.ring peer).abandonStep.getD (s.ring peer) }

/-- `broadcast_batch` returns at once from a call with `count == 0`. -/
def callStep (s : SendSide ι) (t : ι) (call : SendCall) : Option (SendSide ι) :=
  match s.pc t with
  | .outside =>
    if call.msgs.length = 0 then some s
    else
      some { s.setPc t (.entered call) with
        calls := Function.update s.calls t (s.calls t ++ [call.msgs]) }
  | _ => none

def unlockStep (s : SendSide ι) (t : ι) : Option (SendSide ι) :=
  match s.pc t with
  | .leaving => some { s.setPc t .outside with owner := none }
  | _ => none

section
variable (r : RingShape) (i : NodeId)

def lockStep (s : SendSide ι) (t : ι) : Option (SendSide ι) :=
  match s.pc t, s.owner with
  | .entered (.broadcast msg), none =>
    some { s.setPc t (.pushTop msg (peersOf i)) with
      owner := some t, locked := s.locked ++ [(t, [msg])] }
  | .entered (.broadcastBatch batch), none =>
    some { s.setPc t (.batchTop batch) with
      owner := some t, locked := s.locked ++ [(t, batch.msgs)] }
  | _, _ => none

def loadRunningStep (s : SendSide ι) (t : ι) : Option (SendSide ι) :=
  match s.pc t with
  | .batchTop batch => some (s.setPc t (if s.running then .asking batch (peersOf i) else .leaving))
  | .pushTop msg (peer :: todo) =>
    some (s.setPc t (if s.running then .pushing msg (peer :: todo) else .pushTop msg todo))
  | .pushTop _ [] => some (s.setPc t .leaving)
  | _ => none

/-- Where `can_push_batch` leaves the thread. -/
def afterAsking (s : SendSide ι) (t : ι) (batch : MessageArray) (todo : List NodeId) :
    ProducerPc → SendSide ι
  | .payload .. =>
    s.setPc t (if todo.isEmpty then .writing batch (peersOf i) else .asking batch todo)
  | .idle => s.abandonRings.setPc t (.batchTop batch)
  | _ => s

/-- Where `write_batch_at` leaves the thread. -/
def afterWriting (s : SendSide ι) (t : ι) (batch : MessageArray) (todo : List NodeId) :
    ProducerPc → SendSide ι
  | .publish .. =>
    s.setPc t (if todo.isEmpty then .publishing batch (peersOf i) else .writing batch todo)
  | .idle => s.abandonRings.setPc t .leaving
  | _ => s

/-- The log after a head was stored for the first peer of `todo`. -/
def logFirst (log : List (ι × List BandleMessage)) (t : ι) (msgs : List BandleMessage)
    (todo : List NodeId) : List (ι × List BandleMessage) :=
  if todo = peersOf i then log ++ [(t, msgs)] else log

/-- Where an access inside `push` leaves the thread; `published` if it stored the head. -/
def afterPushing (s : SendSide ι) (t : ι) (msg : BandleMessage) (peer : NodeId)
    (todo : List NodeId) (published : Bool) : ProducerPc → SendSide ι
  | .idle =>
    if published then
      { s.setPc t (.pushTop msg todo) with log := logFirst i s.log t [msg] (peer :: todo) }
    else s.setPc t (.pushTop msg (peer :: todo))
  | _ => s

def accessStep (s : SendSide ι) (t : ι) (v : Nat) : Option (SendSide ι) :=
  match s.pc t with
  | .asking batch (peer :: todo) =>
    match (s.ring peer).access r (.batch batch.msgs) v with
    | some ring => some ((s.setRing peer ring).afterAsking i t batch todo ring.producer)
    | none => none
  | .writing batch (peer :: todo) =>
    match (s.ring peer).access r (.batch batch.msgs) v with
    | some ring => some ((s.setRing peer ring).afterWriting i t batch todo ring.producer)
    | none => none
  | .publishing batch (peer :: todo) =>
    match (s.ring peer).storeHeadStep with
    | some ring =>
      some { (s.setRing peer ring).setPc t
          (if todo.isEmpty then .leaving else .publishing batch todo) with
        log := logFirst i s.log t batch.msgs (peer :: todo) }
    | none => none
  | .pushing msg (peer :: todo) =>
    match (s.ring peer).access r (.push msg) v with
    | some ring =>
      some ((s.setRing peer ring).afterPushing i t msg peer todo
        (s.ring peer).producer.publishes ring.producer)
    | none => none
  | _ => none

def consumeStep (s : SendSide ι) (peer : NodeId) (a : RingAction) : Option (SendSide ι) :=
  if a.isConsumer then ((s.ring peer).step r a).map (s.setRing peer) else none

def step (s : SendSide ι) : SendAction ι → Option (SendSide ι)
  | .call t call => s.callStep t call
  | .lock t => s.lockStep i t
  | .loadRunning t => s.loadRunningStep i t
  | .access t v => s.accessStep r i t v
  | .unlock t => s.unlockStep t
  | .stop => some { s with running := false }
  | .consume peer a => s.consumeStep r peer a

end

end SendSide

/-- All runs of the sending side of node `i` between `start` and `stop`, with threads `ι`. -/
def sendSystem (ι : Type*) [DecidableEq ι] (r : RingShape) (i : NodeId) :
    TransitionSystem (SendSide ι) (SendAction ι) where
  init s := ∃ ring : NodeId → SpscRing, (∀ peer, (ringSystem r).init (ring peer)) ∧
    s = { running := true, owner := none, pc := fun _ => .outside, ring := ring, log := [],
          locked := [], calls := fun _ => [] }
  step := SendSide.step r i

end BandleCxl.Source
