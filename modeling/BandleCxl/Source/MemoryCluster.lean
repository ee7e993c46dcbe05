import BandleCxl.Source.Broadcast

/-!
Three replicas over shared memory: the threads of `Cluster` with the rings that they use. In
`broadcast` and `broadcast_batch` the client and the proposer thread of a node move access by
access (`SendSide`), and so does a receive thread in `drain_source_ring` on the ring it reads.
All other steps are those of `Cluster`; the rings of `Cluster` stay empty here.
-/
namespace BandleCxl.Source
open Library Bandle

/-- The threads of a node that send. No handler fills an outbox, so receive threads do not. -/
inductive Sender where
  | client
  | proposer
  deriving DecidableEq

structure MemoryCluster where
  /-- everything but the rings -/
  control : Cluster
  /-- the senders of each node and the rings they write -/
  side : NodeId → SendSide Sender

inductive MemoryAction where
  /-- a step of a thread that is neither sending nor draining -/
  | thread (a : Action)
  | lock (i : NodeId) (t : Sender)
  | loadRunning (i : NodeId) (t : Sender)
  | access (i : NodeId) (t : Sender) (v : Nat)
  | unlock (i : NodeId) (t : Sender)
  /-- a receive thread of `j` on the ring from `src` -/
  | consume (j src : NodeId) (a : RingAction)

def ConsumerPc.isIdle : ConsumerPc → Bool
  | .idle => true
  | _ => false

namespace MemoryCluster

def setSide (s : MemoryCluster) (i : NodeId) (side : SendSide Sender) : MemoryCluster :=
  { s with side := Function.update s.side i side }

/-- The call of `broadcast_batch` after a chunk was admitted. -/
def enterBatch (s : MemoryCluster) (i : NodeId) : Option MemoryCluster :=
  match s.control.client i with
  | .broadcast _ chunk _ =>
    if addressable : chunk.length * kMaxValueBytes ≤ 2 ^ 64 then
      ((s.side i).callStep .client (.broadcastBatch ⟨chunk, addressable⟩)).map (s.setSide i)
    else none
  | _ => none

/-- The call of `broadcast` in `propose_noop`. -/
def enterNoop (s : MemoryCluster) (i : NodeId) : Option MemoryCluster :=
  match s.control.proposer i with
  | .send p _ => ((s.side i).callStep .proposer (.broadcast p)).map (s.setSide i)
  | _ => none

/-- `stop` clears the flag that the senders of the node load, too. -/
def clearRunning (s : MemoryCluster) (i : NodeId) : MemoryCluster :=
  s.setSide i { s.side i with running := false }

def threadStep (hash : Bytes → Nat) (s : MemoryCluster) (a : Action) : Option MemoryCluster :=
  let moved := (s.control.step hash a).map fun control => { s with control := control }
  match a with
  | .ready _ | .abandon _ | .publish _ | .noopSend _ | .noopDrop _ | .drain .. => none
  | .admission i _ => moved.bind (enterBatch · i)
  | .noopNumber i _ => moved.bind (enterNoop · i)
  | .stop i => moved.map (clearRunning · i)
  | .recvExit j src => if ((s.side src).ring j).consumer.isIdle then moved else none
  | _ => moved

/-- The return from `broadcast_batch` or `broadcast`. -/
def unlockStep (s : MemoryCluster) (i : NodeId) (t : Sender) : Option MemoryCluster :=
  match (s.side i).unlockStep t, t, s.control.client i, s.control.proposer i with
  | some side, .client, .broadcast cap chunk rest, _ =>
    some { s.setSide i side with control := s.control.setClient i (.deliver cap chunk rest) }
  | some side, .proposer, _, .send p _ =>
    some { s.setSide i side with control := s.control.setProposer i (.deliver p) }
  | _, _, _, _ => none

/-- The thread that reads the ring from `src` is in its loop and has nothing in hand. A single
receive thread serves all sources. -/
def MayDrain (s : MemoryCluster) (j src : NodeId) : Prop :=
  s.control.recvExited j src = false ∧ s.control.recv j src = [] ∧
    ((s.control.node j).cfg.pipelineWorkers ≤ 1 →
      ∀ k ∈ peersOf j, s.control.recv j k = [] ∧ ((s.side k).ring j).consumer.isIdle = true)

instance (s : MemoryCluster) (j src : NodeId) : Decidable (s.MayDrain j src) :=
  inferInstanceAs (Decidable (_ ∧ _ ∧ (_ → ∀ k ∈ peersOf j, _ ∧ _)))

/-- What `drain_source_ring` asks before a step: its retry loops go on while `running_` is set. -/
def Drains (s : MemoryCluster) (j src : NodeId) : RingAction → Prop
  | .startPop (.drain maxBatch) =>
    maxBatch = recvBatchCapacity (s.control.node j).cfg.batchSize ∧ s.MayDrain j src
  | .startPop .pop => False
  | .retry => (s.control.node j).running = true
  | .quit => (s.control.node j).running = false
  | _ => True

instance (s : MemoryCluster) (j src : NodeId) : (a : RingAction) → Decidable (s.Drains j src a)
  | .startPop (.drain _) => inferInstanceAs (Decidable (_ ∧ _))
  | .startPop .pop => inferInstanceAs (Decidable False)
  | .retry | .quit => inferInstanceAs (Decidable (_ = _))
  | .startPush _ | .loadHeadOwn | .loadTailPeer _ | .storePayload | .storeDescriptor | .storeHead
  | .abandon | .loadTailOwn | .loadHeadPeer _ | .readDescriptor _ | .readPayload _ | .finish
  | .storeTail | .evict _ => inferInstanceAs (Decidable True)

/-- The batch that `drain_source_ring` hands out once it has stored the tail. -/
def received (s : MemoryCluster) (j src : NodeId) : RingAction → Cluster
  | .storeTail =>
    match ((s.side src).ring j).consumer with
    | .commit _ read =>
      s.control.setRecv j src ((List.range read).map ((s.side src).ring j).out)
    | _ => s.control
  | _ => s.control

def consumeStep (r : RingShape) (s : MemoryCluster) (j src : NodeId) (a : RingAction) :
    Option MemoryCluster :=
  if src ∈ peersOf j ∧ s.Drains j src a then
    ((s.side src).consumeStep r j a).map fun side =>
      { s.setSide src side with control := s.received j src a }
  else none

def step (hash : Bytes → Nat) (r : RingShape) (s : MemoryCluster) :
    MemoryAction → Option MemoryCluster
  | .thread a => s.threadStep hash a
  | .lock i t => ((s.side i).lockStep i t).map (s.setSide i)
  | .loadRunning i t => ((s.side i).loadRunningStep i t).map (s.setSide i)
  | .access i t v => ((s.side i).accessStep r i t v).map (s.setSide i)
  | .unlock i t => s.unlockStep i t
  | .consume j src a => s.consumeStep r j src a

end MemoryCluster

/-- All runs of a deployment over rings of shape `r`. -/
def memorySystem (hash : Bytes → Nat) (d : Deployment) (r : RingShape) :
    TransitionSystem MemoryCluster MemoryAction where
  init s := s.control = Cluster.initial d ∧ ∀ i, (sendSystem Sender r i).init (s.side i)
  step := MemoryCluster.step hash r

end BandleCxl.Source
