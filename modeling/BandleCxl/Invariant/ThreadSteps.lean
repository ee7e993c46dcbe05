import BandleCxl.Source.NodeThreads

/-!
Inversion of the step function of a node with its threads. `Moves` lists, for each
action, the program point it starts from, its guard and its result; the proofs about
all interleavings are case analyses on it.
-/
namespace BandleCxl.Invariant
open Library Source Bandle

variable {ι : Type*} [DecidableEq ι]

inductive Moves (hash : Bytes → Nat) (s : NodeThreads ι) : NodeAction ι → NodeThreads ι → Prop where
  | submit {c reqs bufs} (pc : s.client c = .outside) :
      Moves hash s (.submit c reqs bufs)
        { s.setClient c (nextSubmit
            (admissionBatchCapacity (buildProposals bufs reqs (s.node, [])).2.length
              s.node.cfg.admissionBatch) (buildProposals bufs reqs (s.node, [])).2) with
          node := (buildProposals bufs reqs (s.node, [])).1 }
  | admission {c tsc cap chunk rest} (pc : s.client c = .admission cap chunk rest)
      (fits : s.node.Admits chunk.length) :
      Moves hash s (.admission c tsc)
        { s.setClient c (.broadcast cap (numberChunk tsc s.node chunk).2 rest) with
          node := (numberChunk tsc s.node chunk).1 }
  | retry {c tsc} : Moves hash s (.admission c tsc) s
  | broadcast {c cap chunk rest} (pc : s.client c = .broadcast cap chunk rest) :
      Moves hash s (.broadcast c)
        { s.setClient c (.deliver cap chunk rest) with sent := s.sent ++ chunk }
  | selfDeliver {c tsc cap chunk rest} (pc : s.client c = .deliver cap chunk rest) :
      Moves hash s (.selfDeliver c tsc)
        { s.setClient c (nextSubmit cap rest) with
          node := (chunk.foldl (fun n p => n.handleProposalLocked hash tsc p false)
            s.node).advanceExecuteLocked hash tsc }
  | markInputDone : Moves hash s .markInputDone { s with node := { s.node with inputDone := true } }
  | stop (running : s.node.running = true) :
      Moves hash s .stop { s with node := { s.node with
        running := false, hist := { s.node.hist with notified := s.node.hist.notified + 1 } } }
  | stopped : Moves hash s .stop s
  | handleChunk {msgs tsc} :
      Moves hash s (.handleChunk msgs tsc) { s with node := s.node.handleChunk hash tsc msgs }
  | handleMessage {msg tsc} :
      Moves hash s (.handleMessage msg tsc) { s with node := s.node.handleMessage hash tsc msg }
  | noopCheck {finished now} (pc : s.proposer = .loop)
      (due : s.node.shouldProposeNoopLocked finished now = true) :
      Moves hash s (.noopCheck finished now) { s with proposer := .granted }
  | noopIdle {finished now} : Moves hash s (.noopCheck finished now) s
  | noopRead (pc : s.proposer = .granted) :
      Moves hash s .noopRead { s with proposer := .read s.node.noopProposal }
  | noopNumber {now p} (pc : s.proposer = .read p) :
      Moves hash s (.noopNumber now)
        { s with node := s.node.numberNoop now p, proposer := .broadcast p }
  | noopBroadcast {p} (pc : s.proposer = .broadcast p) :
      Moves hash s .noopBroadcast { s with sent := s.sent ++ [p], proposer := .deliver p }
  | noopDeliver {tsc p} (pc : s.proposer = .deliver p) :
      Moves hash s (.noopDeliver tsc)
        { s with node := s.node.handleProposalLocked hash tsc p true, proposer := .loop }

theorem moves_of_step {hash : Bytes → Nat} {s t : NodeThreads ι} {a : NodeAction ι}
    (stepped : s.step hash a = some t) : Moves hash s a t := by
  cases a with
  | submit c reqs bufs =>
    simp only [NodeThreads.step, NodeThreads.submitStep] at stepped
    split at stepped
    · next pc =>
      cases stepped
      exact .submit pc
    · cases stepped
  | admission c tsc =>
    simp only [NodeThreads.step, NodeThreads.admissionStep] at stepped
    split at stepped
    · next pc =>
      split at stepped
      · next fits =>
        cases stepped
        exact .admission pc fits
      · cases stepped
        exact .retry
    · cases stepped
  | broadcast c =>
    simp only [NodeThreads.step, NodeThreads.broadcastStep] at stepped
    split at stepped
    · next pc =>
      cases stepped
      exact .broadcast pc
    · cases stepped
  | selfDeliver c tsc =>
    simp only [NodeThreads.step, NodeThreads.selfDeliverStep] at stepped
    split at stepped
    · next pc =>
      cases stepped
      exact .selfDeliver pc
    · cases stepped
  | markInputDone =>
    cases stepped
    exact .markInputDone
  | stop =>
    cases stepped
    unfold NodeThreads.stopStep
    split
    · next running => exact .stop running
    · exact .stopped
  | handleChunk msgs tsc =>
    cases stepped
    exact .handleChunk
  | handleMessage msg tsc =>
    cases stepped
    exact .handleMessage
  | noopCheck finished now =>
    simp only [NodeThreads.step, NodeThreads.noopCheckStep] at stepped
    split at stepped
    · next pc =>
      split at stepped
      · split at stepped
        · next due =>
          cases stepped
          exact .noopCheck pc due
        · cases stepped
          exact .noopIdle
      · cases stepped
    · cases stepped
  | noopRead =>
    simp only [NodeThreads.step, NodeThreads.noopReadStep] at stepped
    split at stepped
    · next pc =>
      cases stepped
      exact .noopRead pc
    · cases stepped
  | noopNumber now =>
    simp only [NodeThreads.step, NodeThreads.noopNumberStep] at stepped
    split at stepped
    · next pc =>
      cases stepped
      exact .noopNumber pc
    · cases stepped
  | noopBroadcast =>
    simp only [NodeThreads.step, NodeThreads.noopBroadcastStep] at stepped
    split at stepped
    · next pc =>
      cases stepped
      exact .noopBroadcast pc
    · cases stepped
  | noopDeliver tsc =>
    simp only [NodeThreads.step, NodeThreads.noopDeliverStep] at stepped
    split at stepped
    · next pc =>
      cases stepped
      exact .noopDeliver pc
    · cases stepped

end BandleCxl.Invariant
