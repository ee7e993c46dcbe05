import BandleCxl.Library.Transition
import BandleCxl.Source.Execution

/-!
One node and its threads, over every interleaving: any number of client threads in
`submit_borrowed_batch`, which the class accepts at any time, the proposer thread,
and receive threads that hand over messages of any kind and content. One action is
one critical section of `mu_`, one unlocked access to the node's members, or one
call of `broadcast` or `broadcast_batch`.

A section that only looks (a failed window test, a refused no-op) releases the lock
without a change.
-/
namespace BandleCxl.Source
open Library Bandle

/-- Where a client thread stands in `submit_borrowed_batch`. -/
inductive SubmitPc where
  | outside
  /-- in the admission loop with `chunk` -/
  | admission (cap : Nat) (chunk rest : List BandleMessage)
  /-- `chunk` has its numbers, `broadcast_batch` is not called yet -/
  | broadcast (cap : Nat) (chunk rest : List BandleMessage)
  /-- before the self-delivery critical section -/
  | deliver (cap : Nat) (chunk rest : List BandleMessage)

/-- Where the proposer thread stands in `proposer_loop` and `propose_noop`. -/
inductive NoopPc where
  | loop
  /-- `do_noop` is true -/
  | granted
  /-- the proposal is filled in, the lock not taken yet -/
  | read (p : BandleMessage)
  | broadcast (p : BandleMessage)
  | deliver (p : BandleMessage)

structure NodeThreads (ι : Type*) where
  node : Bandle
  client : ι → SubmitPc
  proposer : NoopPc
  /-- history: what `broadcast` and `broadcast_batch` were called with, in order -/
  sent : List BandleMessage := []

inductive NodeAction (ι : Type*) where
  | submit (t : ι) (reqs : List BorrowedRequest) (bufs : Nat → Mem)
  | admission (t : ι) (tsc : Nat → Nat)
  | broadcast (t : ι)
  | selfDeliver (t : ι) (tsc : Nat → Nat)
  | markInputDone
  | stop
  | handleChunk (msgs : List BandleMessage) (tsc : Nat → Nat)
  | handleMessage (msg : BandleMessage) (tsc : Nat → Nat)
  | noopCheck (allNodesFinished : Bool) (now : Nat)
  | noopRead
  | noopNumber (now : Nat)
  | noopBroadcast
  | noopDeliver (tsc : Nat → Nat)

/-- Continue the chunk loop of `submit_borrowed_batch`, or return from it. -/
def nextSubmit (cap : Nat) (rest : List BandleMessage) : SubmitPc :=
  if rest.isEmpty then .outside else .admission cap (rest.take cap) (rest.drop cap)

namespace NodeThreads

variable {ι : Type*} [DecidableEq ι]

def initial (ι : Type*) (cfg : Settings) (preload : KVStore) (now : Nat) : NodeThreads ι where
  node := Bandle.started cfg preload now
  client _ := .outside
  proposer := .loop

def setClient (s : NodeThreads ι) (t : ι) (pc : SubmitPc) : NodeThreads ι :=
  { s with client := Function.update s.client t pc }

/-- `submit_borrowed_batch` up to its first admission loop. -/
def submitStep (s : NodeThreads ι) (t : ι) (reqs : List BorrowedRequest) (bufs : Nat → Mem) :
    Option (NodeThreads ι) :=
  match s.client t with
  | .outside =>
    let built := buildProposals bufs reqs (s.node, [])
    let cap := admissionBatchCapacity built.2.length s.node.cfg.admissionBatch
    some { s.setClient t (nextSubmit cap built.2) with node := built.1 }
  | _ => none

/-- One turn of the admission loop. -/
def admissionStep (s : NodeThreads ι) (t : ι) (tsc : Nat → Nat) : Option (NodeThreads ι) :=
  match s.client t with
  | .admission cap chunk rest =>
    if s.node.Admits chunk.length then
      let numbered := numberChunk tsc s.node chunk
      some { s.setClient t (.broadcast cap numbered.2 rest) with node := numbered.1 }
    else some s
  | _ => none

def broadcastStep (s : NodeThreads ι) (t : ι) : Option (NodeThreads ι) :=
  match s.client t with
  | .broadcast cap chunk rest =>
    some { s.setClient t (.deliver cap chunk rest) with sent := s.sent ++ chunk }
  | _ => none

/-- `stop` up to the joins: it wakes the waiters once. -/
def stopStep (s : NodeThreads ι) : NodeThreads ι :=
  if s.node.running then
    { s with node := { s.node with
      running := false, hist := { s.node.hist with notified := s.node.hist.notified + 1 } } }
  else s

section
variable (hash : Bytes → Nat)

/-- The second critical section of a chunk. -/
def selfDeliverStep (s : NodeThreads ι) (t : ι) (tsc : Nat → Nat) : Option (NodeThreads ι) :=
  match s.client t with
  | .deliver cap chunk rest =>
    let handled := chunk.foldl (fun n p => n.handleProposalLocked hash tsc p false) s.node
    some { s.setClient t (nextSubmit cap rest) with
      node := handled.advanceExecuteLocked hash tsc }
  | _ => none

/-- The critical section of `proposer_loop`. -/
def noopCheckStep (s : NodeThreads ι) (allNodesFinished : Bool) (now : Nat) :
    Option (NodeThreads ι) :=
  match s.proposer with
  | .loop =>
    if s.node.running then
      if s.node.shouldProposeNoopLocked allNodesFinished now then
        some { s with proposer := .granted }
      else some s
    else none
  | _ => none

/-- `propose_noop` reads `next_seq_` before it takes the lock. -/
def noopReadStep (s : NodeThreads ι) : Option (NodeThreads ι) :=
  match s.proposer with
  | .granted => some { s with proposer := .read s.node.noopProposal }
  | _ => none

def noopNumberStep (s : NodeThreads ι) (now : Nat) : Option (NodeThreads ι) :=
  match s.proposer with
  | .read p => some { s with node := s.node.numberNoop now p, proposer := .broadcast p }
  | _ => none

def noopBroadcastStep (s : NodeThreads ι) : Option (NodeThreads ι) :=
  match s.proposer with
  | .broadcast p => some { s with sent := s.sent ++ [p], proposer := .deliver p }
  | _ => none

def noopDeliverStep (s : NodeThreads ι) (tsc : Nat → Nat) : Option (NodeThreads ι) :=
  match s.proposer with
  | .deliver p =>
    some { s with node := s.node.handleProposalLocked hash tsc p true, proposer := .loop }
  | _ => none

def step (s : NodeThreads ι) : NodeAction ι → Option (NodeThreads ι)
  | .submit t reqs bufs => s.submitStep t reqs bufs
  | .admission t tsc => s.admissionStep t tsc
  | .broadcast t => s.broadcastStep t
  | .selfDeliver t tsc => s.selfDeliverStep hash t tsc
  | .markInputDone => some { s with node := { s.node with inputDone := true } }
  | .stop => some s.stopStep
  | .handleChunk msgs tsc => some { s with node := s.node.handleChunk hash tsc msgs }
  | .handleMessage msg tsc => some { s with node := s.node.handleMessage hash tsc msg }
  | .noopCheck allNodesFinished now => s.noopCheckStep allNodesFinished now
  | .noopRead => s.noopReadStep
  | .noopNumber now => s.noopNumberStep now
  | .noopBroadcast => s.noopBroadcastStep
  | .noopDeliver tsc => s.noopDeliverStep hash tsc

end

end NodeThreads

/-- All runs of one started node with client threads `ι`. -/
def nodeSystem (ι : Type*) [DecidableEq ι] (hash : Bytes → Nat) (cfg : Settings)
    (preload : KVStore) (now : Nat) : TransitionSystem (NodeThreads ι) (NodeAction ι) where
  init s := s = NodeThreads.initial ι cfg preload now
  step := NodeThreads.step hash

end BandleCxl.Source
