import BandleCxl.Library.Transition
import BandleCxl.Source.Execution

/-!
Three replicas and their threads: the client thread of `main` (replay, finish
barrier, `stop`), the receive threads and the proposer thread. One action is one
critical section, one publication of a ring head, or one step of a thread that
touches shared state. A ring is the FIFO queue of its published, uncommitted
messages.

With one worker a single receive thread serves both sources, so it holds at most
one received batch; with more there is one thread per source. A receive thread
leaves its loop only when it holds no batch and sees `running_` cleared.
-/
namespace BandleCxl.Source
open Library Bandle

-- Named, so that every module elaborates a node index with the same instances.
instance neZeroThree : NeZero 3 := ⟨by decide⟩

instance lawfulThree : LawfulBEq (Fin 3) := inferInstance

abbrev NodeId := Fin 3

/-- `node_id_`. -/
def number (i : NodeId) : Nat := i.val + 1

/-- The loop `for peer = 1 .. cluster_size, peer != node_id_`. -/
def peersOf (i : NodeId) : List NodeId := [0, 1, 2].filter (· ≠ i)

/-- What a run is given: three constructed nodes with one preloaded store, and the
calls of `submit_borrowed_batch` that each node's replay loop makes. -/
structure Deployment where
  settings : NodeId → Settings
  ids : ∀ i, (settings i).nodeId = number i
  preload : KVStore
  input : NodeId → List (List BorrowedRequest)
  startNs : NodeId → Nat

inductive ClientPc where
  /-- in the replay loop, outside `submit_borrowed_batch` -/
  | replay
  /-- in the admission loop with `chunk` -/
  | admission (cap : Nat) (chunk rest : List BandleMessage)
  /-- in `broadcast_batch`, waiting for room on both rings -/
  | broadcast (cap : Nat) (chunk rest : List BandleMessage)
  /-- slots written, heads of `peers` not published yet -/
  | publish (cap : Nat) (chunk rest : List BandleMessage) (peers : List NodeId)
  /-- before the self-delivery critical section -/
  | deliver (cap : Nat) (chunk rest : List BandleMessage)
  | waitPending
  | barrier
  /-- in `stop`, after `running_` is cleared -/
  | joining
  | stopped

inductive ProposerPc where
  | loop
  /-- `do_noop` is true -/
  | granted
  /-- the proposal is filled in, its number not taken yet -/
  | read (p : BandleMessage)
  | send (p : BandleMessage) (peers : List NodeId)
  | deliver (p : BandleMessage)
  | exited

structure Cluster where
  node : NodeId → Bandle
  client : NodeId → ClientPc
  proposer : NodeId → ProposerPc
  /-- `ring from to` -/
  ring : NodeId → NodeId → List BandleMessage
  /-- `recv at from`: drained, not handled yet -/
  recv : NodeId → NodeId → List BandleMessage
  recvExited : NodeId → NodeId → Bool
  nodeFinished : NodeId → Bool
  input : NodeId → List (List BorrowedRequest)

inductive Action where
  | submit (i : NodeId) (bufs : Nat → Mem)
  | admission (i : NodeId) (tsc : Nat → Nat)
  | ready (i : NodeId)
  | abandon (i : NodeId)
  | publish (i : NodeId)
  | selfDeliver (i : NodeId) (tsc : Nat → Nat)
  | markInputDone (i : NodeId)
  | pendingDone (i : NodeId)
  | stop (i : NodeId)
  | join (i : NodeId)
  | drain (j src : NodeId) (avail : Nat)
  | handle (j src : NodeId) (tsc : Nat → Nat)
  | recvExit (j src : NodeId)
  | noopCheck (i : NodeId) (now : Nat)
  | noopRead (i : NodeId)
  | noopNumber (i : NodeId) (now : Nat)
  | noopSend (i : NodeId)
  | noopDrop (i : NodeId)
  | noopDeliver (i : NodeId) (tsc : Nat → Nat)
  | proposerExit (i : NodeId)

def recvBatchCapacity (submitBatchSize : Nat) : Nat := min 512 (max 128 submitBatchSize)

/-- Continue the chunk loop of `submit_borrowed_batch`, or return from it. -/
def nextChunk (cap : Nat) (rest : List BandleMessage) : ClientPc :=
  if rest.isEmpty then .replay else .admission cap (rest.take cap) (rest.drop cap)

namespace Cluster

def initial (d : Deployment) : Cluster where
  node i := Bandle.started (d.settings i) d.preload (d.startNs i)
  client _ := .replay
  proposer _ := .loop
  ring _ _ := []
  recv _ _ := []
  recvExited _ _ := false
  nodeFinished _ := false
  input := d.input

def setNode (s : Cluster) (i : NodeId) (n : Bandle) : Cluster :=
  { s with node := Function.update s.node i n }

def setClient (s : Cluster) (i : NodeId) (pc : ClientPc) : Cluster :=
  { s with client := Function.update s.client i pc }

def setProposer (s : Cluster) (i : NodeId) (pc : ProposerPc) : Cluster :=
  { s with proposer := Function.update s.proposer i pc }

def setRing (s : Cluster) (i j : NodeId) (msgs : List BandleMessage) : Cluster :=
  { s with ring := Function.update s.ring i (Function.update (s.ring i) j msgs) }

def setRecv (s : Cluster) (j i : NodeId) (msgs : List BandleMessage) : Cluster :=
  { s with recv := Function.update s.recv j (Function.update (s.recv j) i msgs) }

def allNodesFinished (s : Cluster) : Bool := [0, 1, 2].all s.nodeFinished

/-- `submit_borrowed_batch` up to its first admission loop. -/
def submitStep (s : Cluster) (i : NodeId) (bufs : Nat → Mem) : Option Cluster :=
  match s.client i, s.input i with
  | .replay, batch :: later =>
    let built := buildProposals bufs batch (s.node i, [])
    let cap := admissionBatchCapacity built.2.length (s.node i).cfg.admissionBatch
    some { (s.setNode i built.1).setClient i (nextChunk cap built.2) with
      input := Function.update s.input i later }
  | _, _ => none

/-- The admission critical section. When the window test fails the thread backs
off and tries again, which changes nothing. -/
def admitStep (s : Cluster) (i : NodeId) (tsc : Nat → Nat) : Option Cluster :=
  match s.client i with
  | .admission cap chunk rest =>
    if (s.node i).Admits chunk.length then
      let numbered := numberChunk tsc (s.node i) chunk
      some ((s.setNode i numbered.1).setClient i (.broadcast cap numbered.2 rest))
    else none
  | _ => none

/-- One pass of `broadcast_batch` that finds room on every ring. -/
def readyStep (s : Cluster) (i : NodeId) : Option Cluster :=
  match s.client i with
  | .broadcast cap chunk rest =>
    if (s.node i).running ∧
        ∀ peer ∈ peersOf i, (s.ring i peer).length + chunk.length ≤ kBandleRingCapacity then
      some (s.setClient i (.publish cap chunk rest (peersOf i)))
    else none
  | _ => none

/-- `broadcast_batch` returns without sending once `running_` is cleared. -/
def abandonStep (s : Cluster) (i : NodeId) : Option Cluster :=
  match s.client i with
  | .broadcast cap chunk rest =>
    if (s.node i).running then none else some (s.setClient i (.deliver cap chunk rest))
  | _ => none

def publishStep (s : Cluster) (i : NodeId) : Option Cluster :=
  match s.client i with
  | .publish cap chunk rest (peer :: peers) =>
    some ((s.setRing i peer (s.ring i peer ++ chunk)).setClient i (.publish cap chunk rest peers))
  | .publish cap chunk rest [] => some (s.setClient i (.deliver cap chunk rest))
  | _ => none

section
variable (hash : Bytes → Nat)

/-- The second critical section of a chunk. -/
def selfDeliverStep (s : Cluster) (i : NodeId) (tsc : Nat → Nat) : Option Cluster :=
  match s.client i with
  | .deliver cap chunk rest =>
    let handled := chunk.foldl (fun n p => n.handleProposalLocked hash tsc p false) (s.node i)
    some ((s.setNode i (handled.advanceExecuteLocked hash tsc)).setClient i (nextChunk cap rest))
  | _ => none

end

def markInputDoneStep (s : Cluster) (i : NodeId) : Option Cluster :=
  match s.client i, s.input i with
  | .replay, [] =>
    some ((s.setNode i { s.node i with inputDone := true }).setClient i .waitPending)
  | _, _ => none

/-- `wait_for_all_pending` returns and `main` sets its finished flag. -/
def pendingDoneStep (s : Cluster) (i : NodeId) : Option Cluster :=
  match s.client i with
  | .waitPending =>
    if (s.node i).acct.pendingCount = 0 ∨ (s.node i).running = false then
      some { s.setClient i .barrier with nodeFinished := Function.update s.nodeFinished i true }
    else none
  | _ => none

/-- The finish barrier is passed and `stop` clears `running_`. -/
def stopStep (s : Cluster) (i : NodeId) : Option Cluster :=
  match s.client i with
  | .barrier =>
    if s.allNodesFinished then
      some ((s.setNode i { s.node i with running := false }).setClient i .joining)
    else none
  | _ => none

/-- `stop` has joined the proposer and the receive threads. -/
def joinStep (s : Cluster) (i : NodeId) : Option Cluster :=
  match s.client i, s.proposer i with
  | .joining, .exited =>
    if ∀ src ∈ peersOf i, s.recvExited i src then some (s.setClient i .stopped) else none
  | _, _ => none

/-- `drain_source_ring`. The head it loaded may be older than the current one, so
`avail` is any positive part of what is published. -/
def drainStep (s : Cluster) (j src : NodeId) (avail : Nat) : Option Cluster :=
  if src ∈ peersOf j ∧ s.recvExited j src = false ∧ s.recv j src = [] ∧
      ((s.node j).cfg.pipelineWorkers ≤ 1 → ∀ k ∈ peersOf j, s.recv j k = []) ∧
      1 ≤ avail ∧ avail ≤ (s.ring src j).length then
    let count := min avail (recvBatchCapacity (s.node j).cfg.batchSize)
    some ((s.setRecv j src ((s.ring src j).take count)).setRing src j ((s.ring src j).drop count))
  else none

/-- One critical section of `handle_messages_batch`. -/
def handleStep (hash : Bytes → Nat) (s : Cluster) (j src : NodeId) (tsc : Nat → Nat) :
    Option Cluster :=
  if s.recv j src = [] then none
  else
    some ((s.setNode j ((s.node j).handleChunk hash tsc ((s.recv j src).take kHandleChunk))).setRecv
      j src ((s.recv j src).drop kHandleChunk))

def recvExitStep (s : Cluster) (j src : NodeId) : Option Cluster :=
  if src ∈ peersOf j ∧ (s.node j).running = false ∧ s.recv j src = [] then
    some { s with
      recvExited := Function.update s.recvExited j (Function.update (s.recvExited j) src true) }
  else none

/-- The critical section of `proposer_loop`. -/
def noopCheckStep (s : Cluster) (i : NodeId) (now : Nat) : Option Cluster :=
  match s.proposer i with
  | .loop =>
    if (s.node i).running ∧ (s.node i).shouldProposeNoopLocked s.allNodesFinished now then
      some (s.setProposer i .granted)
    else none
  | _ => none

/-- `propose_noop` reads `next_seq_` before it takes the lock. -/
def noopReadStep (s : Cluster) (i : NodeId) : Option Cluster :=
  match s.proposer i with
  | .granted => some (s.setProposer i (.read (s.node i).noopProposal))
  | _ => none

def noopNumberStep (s : Cluster) (i : NodeId) (now : Nat) : Option Cluster :=
  match s.proposer i with
  | .read p => some ((s.setNode i ((s.node i).numberNoop now p)).setProposer i (.send p (peersOf i)))
  | _ => none

/-- `send_to_peer` pushes, while `running_` is set. -/
def noopSendStep (s : Cluster) (i : NodeId) : Option Cluster :=
  match s.proposer i with
  | .send p (peer :: peers) =>
    if (s.node i).running ∧ (s.ring i peer).length < kBandleRingCapacity then
      some ((s.setRing i peer (s.ring i peer ++ [p])).setProposer i (.send p peers))
    else none
  | .send p [] => some (s.setProposer i (.deliver p))
  | _ => none

/-- `send_to_peer` gives up once `running_` is cleared. -/
def noopDropStep (s : Cluster) (i : NodeId) : Option Cluster :=
  match s.proposer i with
  | .send p (_ :: peers) =>
    if (s.node i).running then none else some (s.setProposer i (.send p peers))
  | _ => none

def noopDeliverStep (hash : Bytes → Nat) (s : Cluster) (i : NodeId) (tsc : Nat → Nat) :
    Option Cluster :=
  match s.proposer i with
  | .deliver p =>
    some ((s.setNode i ((s.node i).handleProposalLocked hash tsc p true)).setProposer i .loop)
  | _ => none

def proposerExitStep (s : Cluster) (i : NodeId) : Option Cluster :=
  match s.proposer i with
  | .loop => if (s.node i).running then none else some (s.setProposer i .exited)
  | _ => none

def step (hash : Bytes → Nat) (s : Cluster) : Action → Option Cluster
  | .submit i bufs => s.submitStep i bufs
  | .admission i tsc => s.admitStep i tsc
  | .ready i => s.readyStep i
  | .abandon i => s.abandonStep i
  | .publish i => s.publishStep i
  | .selfDeliver i tsc => s.selfDeliverStep hash i tsc
  | .markInputDone i => s.markInputDoneStep i
  | .pendingDone i => s.pendingDoneStep i
  | .stop i => s.stopStep i
  | .join i => s.joinStep i
  | .drain j src avail => s.drainStep j src avail
  | .handle j src tsc => s.handleStep hash j src tsc
  | .recvExit j src => s.recvExitStep j src
  | .noopCheck i now => s.noopCheckStep i now
  | .noopRead i => s.noopReadStep i
  | .noopNumber i now => s.noopNumberStep i now
  | .noopSend i => s.noopSendStep i
  | .noopDrop i => s.noopDropStep i
  | .noopDeliver i tsc => s.noopDeliverStep hash i tsc
  | .proposerExit i => s.proposerExitStep i

end Cluster

/-- All runs of a deployment, over every interleaving, clock and buffer content. -/
def clusterSystem (hash : Bytes → Nat) (d : Deployment) : TransitionSystem Cluster Action where
  init s := s = Cluster.initial d
  step := Cluster.step hash

/-! ### The default command line -/

/-- `main`'s defaults. -/
def defaultArgs (i : NodeId) : Args where
  nodeId := number i
  clusterSize := 3
  noopIntervalUs := 100
  batchSize := 64
  pipelineWorkers := 1
  admissionWindow := 192
  admissionBatch := 32

def defaultSettings (i : NodeId) : Settings where
  nodeId := number i
  clusterSize := 3
  quorum := 2
  noopIntervalUs := 100
  batchSize := 64
  pipelineWorkers := 1
  admissionWindow := 192
  admissionBatch := 32
  three := rfl
  node_pos := Nat.succ_pos _
  node_le := i.isLt
  batch_pos := by decide
  batch_lt := by decide

example : ∀ i, Settings.ofArgs (defaultArgs i) = some (defaultSettings i) := by
  intro i
  fin_cases i <;> rfl

/-- Three nodes with default settings, an empty store and these submissions. -/
def defaultDeployment (input : NodeId → List (List BorrowedRequest)) : Deployment where
  settings := defaultSettings
  ids _ := rfl
  preload := .empty
  input := input
  startNs _ := 0

/-- One write at node 1, nothing to submit elsewhere. -/
def oneWrite : Deployment :=
  defaultDeployment fun i => if i = 0 then [[.ofBytes opP [1] [2]]] else []

/-- Nodes 1 and 2 submit one write each. -/
def twoWriters : Deployment :=
  defaultDeployment fun i => if i = 0 then [[.ofBytes opP [1] [2]]] else
    if i = 1 then [[.ofBytes opU [1] [3]]] else []

/-- Node 1's write is acknowledged as soon as it has delivered it to itself. -/
def acknowledge : List Action :=
  [.submit 0 fun _ _ => 0, .admission 0 fun _ => 0, .ready 0, .publish 0, .publish 0, .publish 0,
    .selfDeliver 0 fun _ => 0]

/-- Then the other two nodes receive and handle it. -/
def deliverEverywhere : List Action :=
  acknowledge ++ [.drain 1 0 1, .handle 1 0 fun _ => 0, .drain 2 0 1, .handle 2 0 fun _ => 0]

end BandleCxl.Source
