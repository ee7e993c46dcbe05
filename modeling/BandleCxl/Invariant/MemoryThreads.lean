import BandleCxl.Invariant.SendMoves
import BandleCxl.Source.MemoryCluster

/-!
What the threads of a node do outside their calls on the rings, and which places inside a call of
`broadcast_batch` or `send_to_peer` belong to which places of the client and of the proposer.
-/
namespace BandleCxl.Invariant
open Library Source Bandle

/-! ### Steps outside the rings -/

/-- Steps that neither enter a call on the rings nor end a thread that uses them. -/
def plain : Action → Bool
  | .submit .. | .selfDeliver .. | .markInputDone _ | .pendingDone _ | .join _ | .handle ..
  | .noopCheck .. | .noopRead _ | .noopDeliver .. | .proposerExit _ => true
  | _ => false

inductive ThreadMoves (hash : Bytes → Nat) (s : MemoryCluster) : Action → MemoryCluster → Prop
  | plain {a : Action} {c : Cluster} (fires : Fires hash s.control a c) (simple : plain a = true) :
      ThreadMoves hash s a { s with control := c }
  | admission {i : NodeId} {tsc : Nat → Nat} {c : Cluster} {side : SendSide Sender} {cap : Nat}
      {batch : MessageArray} {rest : List BandleMessage}
      (fires : Fires hash s.control (.admission i tsc) c)
      (pc : c.client i = .broadcast cap batch.msgs rest)
      (called : (s.side i).callStep .client (.broadcastBatch batch) = some side) :
      ThreadMoves hash s (.admission i tsc) (MemoryCluster.setSide { s with control := c } i side)
  | noopNumber {i : NodeId} {now : Nat} {c : Cluster} {side : SendSide Sender} {p : BandleMessage}
      {peers : List NodeId} (fires : Fires hash s.control (.noopNumber i now) c)
      (pc : c.proposer i = .send p peers)
      (called : (s.side i).callStep .proposer (.broadcast p) = some side) :
      ThreadMoves hash s (.noopNumber i now) (MemoryCluster.setSide { s with control := c } i side)
  | stop {i : NodeId} {c : Cluster} (fires : Fires hash s.control (.stop i) c) :
      ThreadMoves hash s (.stop i) (MemoryCluster.clearRunning { s with control := c } i)
  | recvExit {j src : NodeId} {c : Cluster} (fires : Fires hash s.control (.recvExit j src) c)
      (idle : ((s.side src).ring j).consumer.isIdle = true) :
      ThreadMoves hash s (.recvExit j src) { s with control := c }

theorem threadMoves_of_step {hash : Bytes → Nat} {s t : MemoryCluster} {a : Action}
    (stepped : s.threadStep hash a = some t) : ThreadMoves hash s a t := by
  cases a with
  | ready | abandon | publish | noopSend | noopDrop | drain => cases stepped
  | admission i tsc =>
    obtain ⟨middle, moved, entered⟩ := Option.bind_eq_some_iff.mp stepped
    obtain ⟨c, fired, rfl⟩ := Option.map_eq_some_iff.mp moved
    simp only [MemoryCluster.enterBatch] at entered
    split at entered
    · next pc =>
      split at entered
      · next addressable =>
        obtain ⟨side, called, rfl⟩ := Option.map_eq_some_iff.mp entered
        exact .admission (fires_of_step fired)
          (show _ = ClientPc.broadcast _ (MessageArray.mk _ addressable).msgs _ from pc) called
      · cases entered
    · cases entered
  | noopNumber i now =>
    obtain ⟨middle, moved, entered⟩ := Option.bind_eq_some_iff.mp stepped
    obtain ⟨c, fired, rfl⟩ := Option.map_eq_some_iff.mp moved
    simp only [MemoryCluster.enterNoop] at entered
    split at entered
    · next pc =>
      obtain ⟨side, called, rfl⟩ := Option.map_eq_some_iff.mp entered
      exact .noopNumber (fires_of_step fired) pc called
    · cases entered
  | stop i =>
    obtain ⟨middle, moved, rfl⟩ := Option.map_eq_some_iff.mp stepped
    obtain ⟨c, fired, rfl⟩ := Option.map_eq_some_iff.mp moved
    exact .stop (fires_of_step fired)
  | recvExit j src =>
    simp only [MemoryCluster.threadStep] at stepped
    split at stepped
    · next idle =>
      obtain ⟨c, fired, rfl⟩ := Option.map_eq_some_iff.mp stepped
      exact .recvExit (fires_of_step fired) idle
    · cases stepped
  | _ =>
    obtain ⟨c, fired, rfl⟩ := Option.map_eq_some_iff.mp stepped
    exact .plain (fires_of_step fired) rfl

/-! ### Where the senders are -/

/-- The client is in `broadcast_batch`. -/
def sendsBatch : ClientPc → Bool
  | .broadcast .. | .publish .. => true
  | _ => false

/-- The proposer is in `broadcast`. -/
def sendsNoop : ProposerPc → Bool
  | .send .. => true
  | _ => false

def ClientSends : SendPc → ClientPc → Prop
  | .outside, c => sendsBatch c = false
  | .entered (.broadcastBatch batch), c | .batchTop batch, c | .asking batch _, c
  | .writing batch _, c | .publishing batch _, c =>
    (∃ cap rest, c = .broadcast cap batch.msgs rest) ∧ Fits batch.msgs = true
  | .leaving, c => ∃ cap chunk rest, c = .broadcast cap chunk rest
  | .entered (.broadcast _), _ | .pushTop .., _ | .pushing .., _ => False

def ProposerSends : SendPc → ProposerPc → Prop
  | .outside, p => sendsNoop p = false
  | .entered (.broadcast msg), p | .pushTop msg _, p | .pushing msg _, p =>
    ∃ peers, p = .send msg peers
  | .leaving, p => ∃ msg peers, p = .send msg peers
  | .entered (.broadcastBatch _), _ | .batchTop _, _ | .asking .., _ | .writing .., _
  | .publishing .., _ => False

theorem ClientSends.outside {pc : SendPc} {c : ClientPc} (h : ClientSends pc c)
    (not : sendsBatch c = false) : pc = .outside := by
  cases pc with
  | outside => rfl
  | entered call =>
    cases call with
    | broadcast msg => exact h.elim
    | broadcastBatch batch =>
      obtain ⟨⟨cap, rest, rfl⟩, -⟩ := h
      cases not
  | batchTop | asking | writing | publishing =>
    obtain ⟨⟨cap, rest, rfl⟩, -⟩ := h
    cases not
  | leaving =>
    obtain ⟨cap, chunk, rest, rfl⟩ := h
    cases not
  | pushTop | pushing => exact h.elim

/-- Outside `broadcast_batch` before and after. -/
theorem ClientSends.other {pc : SendPc} {c c' : ClientPc} (h : ClientSends pc c)
    (before : sendsBatch c = false) (after : sendsBatch c' = false) : ClientSends pc c' := by
  rw [h.outside before]
  exact after

theorem ProposerSends.outside {pc : SendPc} {p : ProposerPc} (h : ProposerSends pc p)
    (not : sendsNoop p = false) : pc = .outside := by
  cases pc with
  | outside => rfl
  | entered call =>
    cases call with
    | broadcast msg =>
      obtain ⟨peers, rfl⟩ := h
      cases not
    | broadcastBatch batch => exact h.elim
  | pushTop | pushing =>
    obtain ⟨peers, rfl⟩ := h
    cases not
  | leaving =>
    obtain ⟨msg, peers, rfl⟩ := h
    cases not
  | batchTop | asking | writing | publishing => exact h.elim

theorem ProposerSends.other {pc : SendPc} {p p' : ProposerPc} (h : ProposerSends pc p)
    (before : sendsNoop p = false) (after : sendsNoop p' = false) : ProposerSends pc p' := by
  rw [h.outside before]
  exact after

theorem ClientSends.move {peers : List NodeId} {running : Bool} {pc pc' : SendPc}
    {sent : Option (NodeId × List BandleMessage)} {c : ClientPc} (h : ClientSends pc c)
    (move : SendMove peers running pc pc' sent) : ClientSends pc' c := by
  cases move with
  | lockMsg | pushes | skips | pushed | goesOn | noRoom | sends => exact h.elim
  | lockBatch | runs | asks | full | roomy | writes | filled | publishes => exact h
  | halts | refused | published =>
    obtain ⟨⟨cap, rest, rfl⟩, -⟩ := h
    exact ⟨cap, _, rest, rfl⟩

theorem ProposerSends.move {peers : List NodeId} {running : Bool} {pc pc' : SendPc}
    {sent : Option (NodeId × List BandleMessage)} {p : ProposerPc} (h : ProposerSends pc p)
    (move : SendMove peers running pc pc' sent) : ProposerSends pc' p := by
  cases move with
  | lockMsg | pushes | skips | goesOn | noRoom | sends => exact h
  | pushed =>
    obtain ⟨peers, rfl⟩ := h
    exact ⟨_, peers, rfl⟩
  | lockBatch | runs | halts | asks | full | roomy | writes | refused | filled | publishes
  | published => exact h.elim

end BandleCxl.Invariant
