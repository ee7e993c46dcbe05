import BandleCxl.Source.KVStore
import BandleCxl.Source.LatencyHistogram

/-!
One replica (`include/bandle.h`, `src/bandle.cpp`). The functions named
`...Locked` run under `mu_` and are total functions on the object's state.

Sequence numbers, request ids and operation counters start at zero or one and
grow by at most a constant per request, so they are unbounded naturals here; the
clock difference and the no-op interval come from outside and are 64-bit.
`rdtsc` is an oracle indexed by the sequence number it is read for. The outbox
that every handler takes is never filled on the modelled paths and is left out.
-/
namespace BandleCxl.Source
open Library

/-! ### Construction -/

/-- Constructor arguments, at the widths of their C++ types. -/
structure Args where
  nodeId : Nat
  clusterSize : Nat
  noopIntervalUs : Fin (2 ^ 64)
  batchSize : Fin (2 ^ 32)
  pipelineWorkers : Nat
  admissionWindow : Fin (2 ^ 64)
  admissionBatch : Fin (2 ^ 32)

/-- The immutable members. A value exists only if the constructor did not abort. -/
structure Settings where
  nodeId : Nat
  clusterSize : Nat
  quorum : Nat
  noopIntervalUs : Nat
  batchSize : Nat
  pipelineWorkers : Nat
  admissionWindow : Nat
  admissionBatch : Nat
  three : clusterSize = 3
  node_pos : 1 ≤ nodeId
  node_le : nodeId ≤ clusterSize
  batch_pos : 1 ≤ admissionBatch
  batch_lt : admissionBatch < 2 ^ 32

/-- The constructor replaces zeros by one and aborts unless it is one of three nodes. -/
def Settings.ofArgs (a : Args) : Option Settings :=
  if valid : a.clusterSize = 3 ∧ 1 ≤ a.nodeId ∧ a.nodeId ≤ a.clusterSize then
    some {
      nodeId := a.nodeId
      clusterSize := a.clusterSize
      quorum := a.clusterSize / 2 + 1
      noopIntervalUs := a.noopIntervalUs
      batchSize := if a.batchSize.val = 0 then 1 else a.batchSize
      pipelineWorkers := if a.pipelineWorkers = 0 then 1 else a.pipelineWorkers
      admissionWindow := if a.admissionWindow.val = 0 then 1 else a.admissionWindow
      admissionBatch := if a.admissionBatch.val = 0 then 1 else a.admissionBatch
      three := valid.1
      node_pos := valid.2.1
      node_le := valid.2.2
      batch_pos := by split <;> omega
      batch_lt := by have := a.admissionBatch.isLt; split <;> omega }
  else none

/-! ### State -/

structure Pending where
  id : Nat := 0
  op : UInt8 := opG
  startTsc : Nat := 0
  done : Bool := false
  deriving DecidableEq, Repr

structure LogEntry where
  seq : Nat := 0
  proposalKnown : Bool := false
  p1Sent : Bool := false
  decided : Bool := false
  decision : Nat := 0
  p1Value1PromiseMask : Nat := 0
  op : UInt8 := opN
  keyLen : Nat := 0
  valueLen : Nat := 0
  proposer : Nat := 0
  clientReqId : Nat := 0
  startTsc : Nat := 0
  deriving DecidableEq, Repr

/-- What one execution of a log slot was about. -/
structure Executed where
  seq : Nat
  decision : Nat
  proposer : Nat
  op : UInt8
  key : Bytes
  value : Bytes
  deriving DecidableEq, Repr

/-- History variables. The code below writes them and never reads them. -/
structure History where
  /-- proposals in the order this node numbered them -/
  numbered : List BandleMessage := []
  /-- proposals in the order `handle_proposal_locked` got them -/
  handled : List BandleMessage := []
  executed : List Executed := []
  /-- numbers of decided, unexecuted entries reset by a proposal of another number -/
  resetLive : List Nat := []
  /-- calls of `pending_cv_.notify_all` -/
  notified : Nat := 0

/-- The members that follow client requests from admission to completion. -/
structure Accounting where
  pending : Nat → Pending := fun _ => {}
  nextClientReqId : Nat := 1
  pendingCount : Nat := 0
  totalOps : Nat := 0
  readOps : Nat := 0
  writeOps : Nat := 0
  okOps : Nat := 0
  errorOps : Nat := 0
  readLatency : AtomicHistogram := {}
  writeLatency : AtomicHistogram := {}
  /-- history: sequence numbers whose request was marked done -/
  completed : List Nat := []
  /-- history: ids of requests not done whose `pending_` slot a later request took -/
  overwritten : List Nat := []

structure Bandle where
  cfg : Settings
  kv : KVStore
  running : Bool := false
  log : Nat → LogEntry := fun _ => {}
  logPayloads : Nat → Mem := fun _ _ => 0
  executeNext : Nat := 1
  nextSeq : Nat
  highestProposedSeq : Nat := 0
  lastNoopNs : Nat := 0
  inputDone : Bool := false
  acct : Accounting := {}
  hist : History := {}

namespace Bandle

/-- The object after construction, preloading and `start`. -/
def started (cfg : Settings) (preload : KVStore) (now : Nat) : Bandle :=
  { cfg, kv := preload, nextSeq := cfg.nodeId, running := true, lastNoopNs := now }

/-- `seq & (kCompletionSlots - 1)`, used for the log and for `pending_`. -/
def slotOf (seq : Nat) : Nat := seq &&& (kCompletionSlots - 1)

def resetLogEntry (seq : Nat) : LogEntry := { seq := seq }

def directApply (hash : Bytes → Nat) (kv : KVStore) (req : Request) : KVStore :=
  if req.op = opP then kv.put hash req.key req.value
  else if req.op = opU then (kv.update hash req.key req.value).1
  else if req.op = opD then (kv.erase hash req.key).1
  else kv

/-! ### Execution -/

/-- The break conditions of the collecting loop, negated. -/
def Executable (n : Bandle) (seq : Nat) : Prop :=
  (n.log (slotOf seq)).seq = seq ∧ (n.log (slotOf seq)).decided = true ∧
    ((n.log (slotOf seq)).decision = 1 → (n.log (slotOf seq)).proposalKnown = true)

instance (n : Bandle) (seq : Nat) : Decidable (n.Executable seq) :=
  inferInstanceAs (Decidable (_ ∧ _ ∧ (_ → _)))

theorem executable_congr {n n' : Bandle} {seq : Nat}
    (log : n'.log (slotOf seq) = n.log (slotOf seq)) : n'.Executable seq ↔ n.Executable seq := by
  simp only [Executable, log]

section
variable (hash : Bytes → Nat)

/-- The views into the payload slot; an erase carries no value. -/
def applyOpAt (n : Bandle) (seq : Nat) : List KVStore.ApplyOp :=
  let e := n.log (slotOf seq)
  let payload := n.logPayloads (slotOf seq)
  if e.decision = 1 ∧ isWriteOp e.op = true then
    [{ op := e.op
       shard := KVStore.shardIdx hash (payload.load 0 e.keyLen)
       key := payload.load 0 e.keyLen
       value := if e.op = opD then [] else payload.load e.keyLen e.valueLen }]
  else []

/-- The collecting loop: how many entries are ready and the writes among them. -/
def collectReady (n : Bandle) : Nat → Nat → Nat × List KVStore.ApplyOp
  | _, 0 => (0, [])
  | seq, budget + 1 =>
    if n.Executable seq then
      let rest := collectReady n (seq + 1) budget
      (rest.1 + 1, n.applyOpAt hash seq ++ rest.2)
    else (0, [])

end

def executedAt (n : Bandle) (seq : Nat) : Executed :=
  let e := n.log (slotOf seq)
  let payload := n.logPayloads (slotOf seq)
  { seq, decision := e.decision, proposer := e.proposer, op := e.op,
    key := payload.load 0 e.keyLen, value := payload.load e.keyLen e.valueLen }

/-- Completion of an own request. The flag is `notify_waiter`. -/
def completePending (endTsc : Nat) (e : LogEntry) (st : Accounting × Bool) : Accounting × Bool :=
  let localId := e.clientReqId &&& (2 ^ 56 - 1)
  let p := st.1.pending (slotOf localId)
  if p.id = e.clientReqId ∧ p.done = false then
    let latency := if endTsc ≥ p.startTsc then endTsc - p.startTsc else 0
    let a : Accounting :=
      if p.op = opG then
        { st.1 with readOps := st.1.readOps + 1, readLatency := st.1.readLatency.record latency }
      else
        { st.1 with
          writeOps := st.1.writeOps + 1, writeLatency := st.1.writeLatency.record latency }
    let a : Accounting := { a with
      pending := Function.update a.pending (slotOf localId) { p with done := true }
      okOps := a.okOps + 1
      totalOps := a.totalOps + 1
      completed := a.completed ++ [e.seq] }
    if a.pendingCount > 0 then
      ({ a with pendingCount := a.pendingCount - 1 }, st.2 || a.pendingCount - 1 == 0)
    else (a, st.2)
  else st

/-- The accounting part of the second loop's body. -/
def completeOwn (tsc : Nat → Nat) (nodeId seq : Nat) (e : LogEntry) (st : Accounting × Bool) :
    Accounting × Bool :=
  if e.decision = 1 ∧ e.proposer = nodeId ∧ e.clientReqId ≠ 0 then completePending (tsc seq) e st
  else st

/-- Body of the second loop of `advance_execute_locked`. -/
def completeEntry (tsc : Nat → Nat) (seq : Nat) (st : Bandle × Bool) : Bandle × Bool :=
  let n := st.1
  let out := completeOwn tsc n.cfg.nodeId seq (n.log (slotOf seq)) (n.acct, st.2)
  ({ n with
      acct := out.1
      log := Function.update n.log (slotOf seq) (resetLogEntry 0)
      hist := { n.hist with executed := n.hist.executed ++ [n.executedAt seq] } }, out.2)

def completeRange (tsc : Nat → Nat) : Nat → Nat → Bandle × Bool → Bandle × Bool
  | _, 0, st => st
  | seq, count + 1, st => completeRange tsc (seq + 1) count (completeEntry tsc seq st)

def kExecuteBatchMax : Nat := 256

section
variable (hash : Bytes → Nat) (tsc : Nat → Nat)

/-- The `while (true)` of `advance_execute_locked`. Every round resets at least one
decided slot, so the number of slots bounds the rounds (`advance_drained`). -/
def advanceLoop : Nat → Bandle × Bool → Bandle × Bool
  | 0, st => st
  | fuel + 1, st =>
    let ready := st.1.collectReady hash st.1.executeNext kExecuteBatchMax
    if ready.1 = 0 then st
    else
      let applied := { st.1 with kv := st.1.kv.applyOpsInOrder ready.2 }
      let done := completeRange tsc st.1.executeNext ready.1 (applied, st.2)
      advanceLoop fuel ({ done.1 with executeNext := st.1.executeNext + ready.1 }, done.2)

def advanceExecuteLocked (n : Bandle) : Bandle :=
  let out := advanceLoop hash tsc (kCompletionSlots + 1) (n, false)
  if out.2 then { out.1 with hist := { out.1.hist with notified := out.1.hist.notified + 1 } }
  else out.1

end

/-! ### Message handlers -/

/-- Storing a proposal whose entry already has its number. -/
def storeProposal (e : LogEntry) (payload : Mem) (b : BandlePayload) : LogEntry × Mem :=
  if e.proposalKnown then (e, payload)
  else
    let e := { e with
      proposalKnown := true, op := b.op, proposer := b.proposer
      clientReqId := b.clientReqId, startTsc := b.startTsc }
    if b.op = opG ∨ b.op = opN then ({ e with keyLen := 0, valueLen := 0 }, payload)
    else if b.keyLen + b.valueLen ≤ kMaxValueBytes then
      ({ e with keyLen := b.keyLen, valueLen := b.valueLen },
        payload.store 0 (b.data.load 0 (b.keyLen + b.valueLen)))
    else ({ e with op := opN, keyLen := 0, valueLen := 0 }, payload)

/-- The entry of a slot, reset first if it belongs to another number. -/
def claimEntry (n : Bandle) (seq : Nat) : LogEntry :=
  if (n.log (slotOf seq)).seq ≠ seq then resetLogEntry seq else n.log (slotOf seq)

/-- The slot holds a decided entry of another number that is not executed yet. -/
def HoldsLiveOther (n : Bandle) (seq : Nat) : Prop :=
  (n.log (slotOf seq)).seq ≠ seq ∧ (n.log (slotOf seq)).decided = true ∧
    n.executeNext ≤ (n.log (slotOf seq)).seq

instance (n : Bandle) (seq : Nat) : Decidable (n.HoldsLiveOther seq) :=
  inferInstanceAs (Decidable (_ ∧ _ ∧ _))

/-- `handle_proposal_locked` without the trailing execution: proposals are decided
on delivery. -/
def recordProposal (n : Bandle) (msg : BandleMessage) : Bandle :=
  let b := msg.body
  let stored := storeProposal (n.claimEntry b.seq) (n.logPayloads (slotOf b.seq)) b
  { n with
    log := Function.update n.log (slotOf b.seq) { stored.1 with decided := true, decision := 1 }
    logPayloads := Function.update n.logPayloads (slotOf b.seq) stored.2
    hist := { n.hist with
      handled := n.hist.handled ++ [msg]
      resetLive := n.hist.resetLive ++
        if n.HoldsLiveOther b.seq then [(n.log (slotOf b.seq)).seq] else [] } }

def popcount (mask : Nat) : Nat := ((List.range 8).filter (mask.testBit ·)).length

section
variable (hash : Bytes → Nat) (tsc : Nat → Nat)

def handleProposalLocked (n : Bandle) (msg : BandleMessage) (advance : Bool) : Bandle :=
  if advance then (n.recordProposal msg).advanceExecuteLocked hash tsc else n.recordProposal msg

def decideLocked (n : Bandle) (seq value : Nat) : Bandle :=
  let e := n.claimEntry seq
  if e.decided then { n with log := Function.update n.log (slotOf seq) e }
  else
    advanceExecuteLocked hash tsc { n with
      log := Function.update n.log (slotOf seq) { e with decided := true, decision := value } }

def handleP1Locked (n : Bandle) (msg : BandleMessage) : Bandle :=
  let b := msg.body
  if b.value ≠ 1 ∨ b.promise = 0 ∨ b.sender < 1 ∨ b.sender > n.cfg.clusterSize then n
  else
    let e := n.claimEntry b.seq
    let mask := e.p1Value1PromiseMask ||| (1 <<< (b.sender - 1))
    let n := { n with
      log := Function.update n.log (slotOf b.seq) { e with p1Value1PromiseMask := mask } }
    if popcount mask ≥ n.cfg.quorum then decideLocked hash tsc n b.seq 1 else n

def handleDecideLocked (n : Bandle) (msg : BandleMessage) : Bandle :=
  let b := msg.body
  let e := n.claimEntry b.seq
  let e := if e.decided then e else { e with decided := true, decision := b.value }
  advanceExecuteLocked hash tsc { n with log := Function.update n.log (slotOf b.seq) e }

/-- One message inside a chunk of `handle_messages_batch`; the flag is `need_advance`. -/
def handleInChunk (st : Bandle × Bool) (msg : BandleMessage) : Bandle × Bool :=
  match msg.type with
  | .proposal => (handleProposalLocked hash tsc st.1 msg false, true)
  | .p1 => (handleP1Locked hash tsc st.1 msg, st.2)
  | .decide => (handleDecideLocked hash tsc st.1 msg, st.2)
  | .p2 => st

/-- One critical section of `handle_messages_batch`. -/
def handleChunk (n : Bandle) (msgs : List BandleMessage) : Bandle :=
  let out := msgs.foldl (handleInChunk hash tsc) (n, false)
  if out.2 then out.1.advanceExecuteLocked hash tsc else out.1

end

def kHandleChunk : Nat := 64

/-- `handle_messages_batch`: one critical section for every `kHandleChunk` messages. -/
def handleMessagesBatch (hash : Bytes → Nat) (tsc : Nat → Nat) (n : Bandle)
    (msgs : List BandleMessage) : Bandle :=
  if msgs.isEmpty then n
  else
    handleMessagesBatch hash tsc (n.handleChunk hash tsc (msgs.take kHandleChunk))
      (msgs.drop kHandleChunk)
termination_by msgs.length
decreasing_by
  have chunk : kHandleChunk = 64 := rfl
  have some : msgs ≠ [] := by simp_all
  have pos := List.length_pos_iff.mpr some
  rw [List.length_drop]
  omega

/-- `handle_message`: one message, executed at once. -/
def handleMessage (hash : Bytes → Nat) (tsc : Nat → Nat) (n : Bandle) (msg : BandleMessage) :
    Bandle :=
  match msg.type with
  | .proposal => handleProposalLocked hash tsc n msg true
  | .p1 => handleP1Locked hash tsc n msg
  | .decide => handleDecideLocked hash tsc n msg
  | .p2 => n

/-! ### Submission -/

def maxInflightSeqWindow (submitBatchSize clusterSize configuredWindow : Nat) : Nat :=
  max configuredWindow (clusterSize * max submitBatchSize 1 + clusterSize)

def admissionBatchCapacity (submitCount configuredBatch : Nat) : Nat :=
  max 1 (min (max 1 configuredBatch) submitCount)

def validOp (op : UInt8) : Bool := op == opG || isWriteOp op

/-- `memcpy` of `len` bytes, skipped for a null pointer. -/
def copyFrom (ptr : Option Mem) (len : Nat) (dst : Mem) (offset : Nat) : Mem :=
  match ptr with
  | some p => dst.store offset (p.load 0 len)
  | none => dst

/-- Proposal construction. `old` is what the reused buffer element held before. -/
def buildProposal (nodeId : Nat) (old : Mem) (r : BorrowedRequest) : BandleMessage :=
  let keyLen := if r.op = opG then 0 else min r.keyLen kMaxValueBytes
  let valueLen := if r.op = opG then 0 else min r.valueLen (kMaxValueBytes - keyLen)
  let withKey := copyFrom r.keyPtr keyLen old 0
  let withValue := copyFrom r.valuePtr valueLen withKey keyLen
  { slotSeq := 0
    type := .proposal
    body := { round := 1, sender := nodeId, proposer := nodeId, seq := 0, clientReqId := 0,
              startTsc := 0, value := 1, promise := 0, op := r.op, keyLen, valueLen,
              data := withValue } }

/-- First loop of `submit_borrowed_batch`; `bufs` is the proposal array's old content. -/
def buildProposals (bufs : Nat → Mem) : List BorrowedRequest → Bandle × List BandleMessage →
    Bandle × List BandleMessage
  | [], st => st
  | r :: rest, st =>
    if validOp r.op then
      buildProposals bufs rest
        (st.1, st.2 ++ [buildProposal st.1.cfg.nodeId (bufs st.2.length) r])
    else
      buildProposals bufs rest
        ({ st.1 with acct := { st.1.acct with
            errorOps := st.1.acct.errorOps + 1, totalOps := st.1.acct.totalOps + 1 } }, st.2)

/-- `pending_` and its counters when a request gets its id. -/
def admitRequest (a : Accounting) (id : Nat) (op : UInt8) (start : Nat) : Accounting :=
  let old := a.pending (slotOf a.nextClientReqId)
  { a with
    nextClientReqId := a.nextClientReqId + 1
    pending := Function.update a.pending (slotOf a.nextClientReqId)
      { id, op, startTsc := start, done := false }
    pendingCount := a.pendingCount + 1
    overwritten := a.overwritten ++ if old.id ≠ 0 ∧ old.done = false then [old.id] else [] }

/-- Body of the numbering loop inside the admission critical section. -/
def numberProposal (tsc : Nat → Nat) (n : Bandle) (p : BandleMessage) : Bandle × BandleMessage :=
  let id := (n.cfg.nodeId <<< 56) ||| n.acct.nextClientReqId
  let p := { p with body := { p.body with
    seq := n.nextSeq, startTsc := tsc n.nextSeq, clientReqId := id } }
  ({ n with
      highestProposedSeq := max n.highestProposedSeq n.nextSeq
      nextSeq := n.nextSeq + n.cfg.clusterSize
      acct := admitRequest n.acct id p.body.op (tsc n.nextSeq)
      hist := { n.hist with numbered := n.hist.numbered ++ [p] } }, p)

def numberChunk (tsc : Nat → Nat) : Bandle → List BandleMessage → Bandle × List BandleMessage
  | n, [] => (n, [])
  | n, p :: rest =>
    let first := numberProposal tsc n p
    let others := numberChunk tsc first.1 rest
    (others.1, first.2 :: others.2)

/-- The window a chunk is tested against. -/
def chunkWindow (n : Bandle) (chunk : Nat) : Nat :=
  maxInflightSeqWindow (chunk % 2 ^ 32) n.cfg.clusterSize n.cfg.admissionWindow

/-- `last_seq < execute_next_ + window`. As long as the sums stay below `2 ^ 64` this is the
test in the arithmetic of the source (`admitsWord_iff_admits`). -/
def Admits (n : Bandle) (chunk : Nat) : Prop :=
  n.nextSeq + (chunk - 1) * n.cfg.clusterSize < n.executeNext + n.chunkWindow chunk

instance (n : Bandle) (chunk : Nat) : Decidable (n.Admits chunk) :=
  inferInstanceAs (Decidable (_ < _))

/-! ### No-ops -/

def shouldProposeNoopLocked (n : Bandle) (allNodesFinished : Bool) (now : Nat) : Bool :=
  if !n.inputDone || allNodesFinished then false
  else if sub64 now n.lastNoopNs < mul64 n.cfg.noopIntervalUs 1000 then false
  else decide (n.highestProposedSeq < n.executeNext + n.cfg.clusterSize * 512)

/-- The proposal that `propose_noop` fills in before it takes the lock. -/
def noopProposal (n : Bandle) : BandleMessage :=
  { type := .proposal
    body := { seq := n.nextSeq, round := 1, sender := n.cfg.nodeId, proposer := n.cfg.nodeId,
              op := opN } }

/-- First critical section of `propose_noop`. -/
def numberNoop (n : Bandle) (now : Nat) (p : BandleMessage) : Bandle :=
  { n with
    highestProposedSeq := max n.highestProposedSeq n.nextSeq
    nextSeq := n.nextSeq + n.cfg.clusterSize
    lastNoopNs := now
    hist := { n.hist with numbered := n.hist.numbered ++ [p] } }

end Bandle

end BandleCxl.Source
