import BandleCxl.Source.Cluster

/-!
Inversion of the cluster's step function. `Fires` lists, for each action, the
program points it starts from, its guard and its result; every invariant proof
below is a case analysis on it and never unfolds a step function.
-/
namespace BandleCxl.Invariant
open Library Source Bandle

inductive Fires (hash : Bytes → Nat) (s : Cluster) : Action → Cluster → Prop where
  | submit {i bufs batch later} (pc : s.client i = .replay) (todo : s.input i = batch :: later) :
      Fires hash s (.submit i bufs)
        { (s.setNode i (buildProposals bufs batch (s.node i, [])).1).setClient i
            (nextChunk (admissionBatchCapacity (buildProposals bufs batch (s.node i, [])).2.length
              (s.node i).cfg.admissionBatch) (buildProposals bufs batch (s.node i, [])).2) with
          input := Function.update s.input i later }
  | admission {i tsc cap chunk rest} (pc : s.client i = .admission cap chunk rest)
      (fits : (s.node i).Admits chunk.length) :
      Fires hash s (.admission i tsc)
        ((s.setNode i (numberChunk tsc (s.node i) chunk).1).setClient i
          (.broadcast cap (numberChunk tsc (s.node i) chunk).2 rest))
  | ready {i cap chunk rest} (pc : s.client i = .broadcast cap chunk rest)
      (running : (s.node i).running = true)
      (room : ∀ peer ∈ peersOf i, (s.ring i peer).length + chunk.length ≤ kBandleRingCapacity) :
      Fires hash s (.ready i) (s.setClient i (.publish cap chunk rest (peersOf i)))
  | abandon {i cap chunk rest} (pc : s.client i = .broadcast cap chunk rest)
      (stopped : (s.node i).running = false) :
      Fires hash s (.abandon i) (s.setClient i (.deliver cap chunk rest))
  | publish {i cap chunk rest peer peers}
      (pc : s.client i = .publish cap chunk rest (peer :: peers)) :
      Fires hash s (.publish i) ((s.setRing i peer (s.ring i peer ++ chunk)).setClient i
        (.publish cap chunk rest peers))
  | published {i cap chunk rest} (pc : s.client i = .publish cap chunk rest []) :
      Fires hash s (.publish i) (s.setClient i (.deliver cap chunk rest))
  | selfDeliver {i tsc cap chunk rest} (pc : s.client i = .deliver cap chunk rest) :
      Fires hash s (.selfDeliver i tsc)
        ((s.setNode i ((chunk.foldl (fun n p => n.handleProposalLocked hash tsc p false)
          (s.node i)).advanceExecuteLocked hash tsc)).setClient i (nextChunk cap rest))
  | markInputDone {i} (pc : s.client i = .replay) (todo : s.input i = []) :
      Fires hash s (.markInputDone i)
        ((s.setNode i { s.node i with inputDone := true }).setClient i .waitPending)
  | pendingDone {i} (pc : s.client i = .waitPending)
      (done : (s.node i).acct.pendingCount = 0 ∨ (s.node i).running = false) :
      Fires hash s (.pendingDone i)
        { s.setClient i .barrier with nodeFinished := Function.update s.nodeFinished i true }
  | stop {i} (pc : s.client i = .barrier) (finished : s.allNodesFinished = true) :
      Fires hash s (.stop i)
        ((s.setNode i { s.node i with running := false }).setClient i .joining)
  | join {i} (pc : s.client i = .joining) (exited : s.proposer i = .exited)
      (receivers : ∀ src ∈ peersOf i, s.recvExited i src = true) :
      Fires hash s (.join i) (s.setClient i .stopped)
  | drain {j src avail} (peer : src ∈ peersOf j) (alive : s.recvExited j src = false)
      (idle : s.recv j src = [])
      (single : (s.node j).cfg.pipelineWorkers ≤ 1 → ∀ k ∈ peersOf j, s.recv j k = [])
      (some : 1 ≤ avail) (published : avail ≤ (s.ring src j).length) :
      Fires hash s (.drain j src avail)
        ((s.setRecv j src ((s.ring src j).take
          (min avail (recvBatchCapacity (s.node j).cfg.batchSize)))).setRing src j
          ((s.ring src j).drop (min avail (recvBatchCapacity (s.node j).cfg.batchSize))))
  | handle {j src tsc} (batch : s.recv j src ≠ []) :
      Fires hash s (.handle j src tsc)
        ((s.setNode j ((s.node j).handleChunk hash tsc
          ((s.recv j src).take kHandleChunk))).setRecv j src ((s.recv j src).drop kHandleChunk))
  | recvExit {j src} (peer : src ∈ peersOf j) (stopped : (s.node j).running = false)
      (idle : s.recv j src = []) :
      Fires hash s (.recvExit j src) { s with
        recvExited := Function.update s.recvExited j (Function.update (s.recvExited j) src true) }
  | noopCheck {i now} (pc : s.proposer i = .loop) (running : (s.node i).running = true)
      (due : (s.node i).shouldProposeNoopLocked s.allNodesFinished now = true) :
      Fires hash s (.noopCheck i now) (s.setProposer i .granted)
  | noopRead {i} (pc : s.proposer i = .granted) :
      Fires hash s (.noopRead i) (s.setProposer i (.read (s.node i).noopProposal))
  | noopNumber {i now p} (pc : s.proposer i = .read p) :
      Fires hash s (.noopNumber i now)
        ((s.setNode i ((s.node i).numberNoop now p)).setProposer i (.send p (peersOf i)))
  | noopSend {i p peer peers} (pc : s.proposer i = .send p (peer :: peers))
      (running : (s.node i).running = true)
      (room : (s.ring i peer).length < kBandleRingCapacity) :
      Fires hash s (.noopSend i)
        ((s.setRing i peer (s.ring i peer ++ [p])).setProposer i (.send p peers))
  | noopSent {i p} (pc : s.proposer i = .send p []) :
      Fires hash s (.noopSend i) (s.setProposer i (.deliver p))
  | noopDrop {i p peer peers} (pc : s.proposer i = .send p (peer :: peers))
      (stopped : (s.node i).running = false) :
      Fires hash s (.noopDrop i) (s.setProposer i (.send p peers))
  | noopDeliver {i tsc p} (pc : s.proposer i = .deliver p) :
      Fires hash s (.noopDeliver i tsc)
        ((s.setNode i ((s.node i).handleProposalLocked hash tsc p true)).setProposer i .loop)
  | proposerExit {i} (pc : s.proposer i = .loop) (stopped : (s.node i).running = false) :
      Fires hash s (.proposerExit i) (s.setProposer i .exited)

theorem fires_of_step {hash : Bytes → Nat} {s t : Cluster} {a : Action}
    (stepped : s.step hash a = some t) : Fires hash s a t := by
  cases a with
  | submit i bufs =>
    simp only [Cluster.step, Cluster.submitStep] at stepped
    split at stepped
    · next pc todo =>
      cases stepped
      exact .submit pc todo
    · cases stepped
  | admission i tsc =>
    simp only [Cluster.step, Cluster.admitStep] at stepped
    split at stepped
    · next pc =>
      split at stepped
      · next fits =>
        cases stepped
        exact .admission pc fits
      · cases stepped
    · cases stepped
  | ready i =>
    simp only [Cluster.step, Cluster.readyStep] at stepped
    split at stepped
    · next pc =>
      split at stepped
      · next guard =>
        cases stepped
        exact .ready pc guard.1 guard.2
      · cases stepped
    · cases stepped
  | abandon i =>
    simp only [Cluster.step, Cluster.abandonStep] at stepped
    split at stepped
    · next pc =>
      split at stepped
      · cases stepped
      · next stopped =>
        cases stepped
        exact .abandon pc (by simpa using stopped)
    · cases stepped
  | publish i =>
    simp only [Cluster.step, Cluster.publishStep] at stepped
    split at stepped
    · next pc =>
      cases stepped
      exact .publish pc
    · next pc =>
      cases stepped
      exact .published pc
    · cases stepped
  | selfDeliver i tsc =>
    simp only [Cluster.step, Cluster.selfDeliverStep] at stepped
    split at stepped
    · next pc =>
      cases stepped
      exact .selfDeliver pc
    · cases stepped
  | markInputDone i =>
    simp only [Cluster.step, Cluster.markInputDoneStep] at stepped
    split at stepped
    · next pc todo =>
      cases stepped
      exact .markInputDone pc todo
    · cases stepped
  | pendingDone i =>
    simp only [Cluster.step, Cluster.pendingDoneStep] at stepped
    split at stepped
    · next pc =>
      split at stepped
      · next done =>
        cases stepped
        exact .pendingDone pc done
      · cases stepped
    · cases stepped
  | stop i =>
    simp only [Cluster.step, Cluster.stopStep] at stepped
    split at stepped
    · next pc =>
      split at stepped
      · next finished =>
        cases stepped
        exact .stop pc finished
      · cases stepped
    · cases stepped
  | join i =>
    simp only [Cluster.step, Cluster.joinStep] at stepped
    split at stepped
    · next pc exited =>
      split at stepped
      · next receivers =>
        cases stepped
        exact .join pc exited receivers
      · cases stepped
    · cases stepped
  | drain j src avail =>
    simp only [Cluster.step, Cluster.drainStep] at stepped
    split at stepped
    · next guard =>
      cases stepped
      exact .drain guard.1 guard.2.1 guard.2.2.1 guard.2.2.2.1 guard.2.2.2.2.1 guard.2.2.2.2.2
    · cases stepped
  | handle j src tsc =>
    simp only [Cluster.step, Cluster.handleStep] at stepped
    split at stepped
    · cases stepped
    · next batch =>
      cases stepped
      exact .handle batch
  | recvExit j src =>
    simp only [Cluster.step, Cluster.recvExitStep] at stepped
    split at stepped
    · next guard =>
      cases stepped
      exact .recvExit guard.1 guard.2.1 guard.2.2
    · cases stepped
  | noopCheck i now =>
    simp only [Cluster.step, Cluster.noopCheckStep] at stepped
    split at stepped
    · next pc =>
      split at stepped
      · next guard =>
        cases stepped
        exact .noopCheck pc guard.1 guard.2
      · cases stepped
    · cases stepped
  | noopRead i =>
    simp only [Cluster.step, Cluster.noopReadStep] at stepped
    split at stepped
    · next pc =>
      cases stepped
      exact .noopRead pc
    · cases stepped
  | noopNumber i now =>
    simp only [Cluster.step, Cluster.noopNumberStep] at stepped
    split at stepped
    · next pc =>
      cases stepped
      exact .noopNumber pc
    · cases stepped
  | noopSend i =>
    simp only [Cluster.step, Cluster.noopSendStep] at stepped
    split at stepped
    · next pc =>
      split at stepped
      · next guard =>
        cases stepped
        exact .noopSend pc guard.1 guard.2
      · cases stepped
    · next pc =>
      cases stepped
      exact .noopSent pc
    · cases stepped
  | noopDrop i =>
    simp only [Cluster.step, Cluster.noopDropStep] at stepped
    split at stepped
    · next pc =>
      split at stepped
      · cases stepped
      · next stopped =>
        cases stepped
        exact .noopDrop pc (by simpa using stopped)
    · cases stepped
  | noopDeliver i tsc =>
    simp only [Cluster.step, Cluster.noopDeliverStep] at stepped
    split at stepped
    · next pc =>
      cases stepped
      exact .noopDeliver pc
    · cases stepped
  | proposerExit i =>
    simp only [Cluster.step, Cluster.proposerExitStep] at stepped
    split at stepped
    · next pc =>
      split at stepped
      · cases stepped
      · next stopped =>
        cases stepped
        exact .proposerExit pc (by simpa using stopped)
    · cases stepped

/-- A property of the states reached by steps that all meet a condition: it holds initially
and every firing that meets the condition preserves it. -/
theorem cluster_invariant_under {hash : Bytes → Nat} {d : Deployment} {P : Cluster → Prop}
    {ok : Cluster → Action → Prop} (initial : P (Cluster.initial d))
    (preserved : ∀ s a t, (clusterSystem hash d).Reachable s → P s → ok s a → Fires hash s a t → P t)
    {s : Cluster} (reached : (clusterSystem hash d).ReachableUnder ok s) : P s := by
  refine reached.invariant ?_ ?_
  · intro start isInitial
    have eq : start = Cluster.initial d := isInitial
    rw [eq]
    exact initial
  · intro s a t reached holds allowed stepped
    exact preserved s a t reached holds allowed (fires_of_step stepped)

/-- Without a condition: a property of every reachable state. -/
theorem cluster_invariant {hash : Bytes → Nat} {d : Deployment} {P : Cluster → Prop}
    (initial : P (Cluster.initial d))
    (preserved : ∀ s a t, (clusterSystem hash d).Reachable s → P s → Fires hash s a t → P t)
    {s : Cluster} (reached : (clusterSystem hash d).Reachable s) : P s := by
  have always : (clusterSystem hash d).ReachableUnder (fun _ _ => True) s :=
    reached.under fun _ _ _ _ _ => trivial
  exact cluster_invariant_under initial
    (fun s a t reached holds _ fires => preserved s a t reached holds fires) always

/-! ### Properties of single nodes -/

/-- A property of each node's object, client thread and remaining input. -/
def EachNode (P : NodeId → Bandle → ClientPc → List (List BorrowedRequest) → Prop)
    (s : Cluster) : Prop :=
  ∀ i, P i (s.node i) (s.client i) (s.input i)

variable {P : NodeId → Bandle → ClientPc → List (List BorrowedRequest) → Prop} {s : Cluster}
  {k : NodeId} {n : Bandle} {c : ClientPc}

theorem EachNode.set (h : EachNode P s) (moved : P k n c (s.input k)) :
    EachNode P ((s.setNode k n).setClient k c) := by
  intro i
  by_cases here : i = k
  · subst i
    simpa only [Cluster.setNode, Cluster.setClient, Function.update_self] using moved
  · simpa only [Cluster.setNode, Cluster.setClient, Function.update_of_ne here] using h i

theorem EachNode.setNode (h : EachNode P s) (moved : P k n (s.client k) (s.input k)) :
    EachNode P (s.setNode k n) := by
  have both := h.set moved
  simpa only [Cluster.setNode, Cluster.setClient, Function.update_eq_self] using both

theorem EachNode.setClient (h : EachNode P s) (moved : P k (s.node k) c (s.input k)) :
    EachNode P (s.setClient k c) := by
  have both := h.set moved
  simpa only [Cluster.setNode, Function.update_eq_self] using both

/-- `submit_borrowed_batch` also takes a batch off the input. -/
theorem EachNode.submit (h : EachNode P s) {later : List (List BorrowedRequest)}
    (moved : P k n c later) :
    EachNode P { (s.setNode k n).setClient k c with input := Function.update s.input k later } := by
  intro i
  by_cases here : i = k
  · subst i
    simpa only [Cluster.setNode, Cluster.setClient, Function.update_self] using moved
  · simpa only [Cluster.setNode, Cluster.setClient, Function.update_of_ne here] using h i

end BandleCxl.Invariant
