import BandleCxl.Invariant.MemoryCalls
import BandleCxl.Invariant.Recast
import BandleCxl.Invariant.RingContents

/-!
How the replicas over shared memory look when a ring is the queue of its published, uncommitted
messages. A node that sends a message when `stop` clears its flag is shown as still running until
the push has ended; the threads that have left by then are shown to leave with it.
-/
namespace BandleCxl.Invariant
open Library Source Bandle

/-- In `push`, after `running_` was found set. -/
def pushing : SendPc → Bool
  | .pushing .. => true
  | _ => false

/-- The flag was cleared while the proposer was in `push`. -/
def late (side : SendSide Sender) : Bool := !side.running && pushing (side.pc .proposer)

/-- Running, or late. -/
def on (side : SendSide Sender) : Bool := side.running || pushing (side.pc .proposer)

def clientView (late : Bool) (i : NodeId) : SendPc → ClientPc → ClientPc
  | .writing .., .broadcast cap chunk rest => .publish cap chunk rest (peersOf i)
  | .publishing _ todo, .broadcast cap chunk rest => .publish cap chunk rest todo
  | .leaving, .broadcast cap chunk rest => .deliver cap chunk rest
  | _, c => if late then .barrier else c

def proposerView (i : NodeId) : SendPc → ProposerPc → ProposerPc
  | .entered (.broadcast msg), _ => .send msg (peersOf i)
  | .pushTop msg todo, _ | .pushing msg todo, _ => .send msg todo
  | .leaving, .send p _ => .deliver p
  | _, p => p

/-- What node `i` shows. -/
structure Beside (m : MemoryCluster) (c : Cluster) (i : NodeId) : Prop where
  node : ∃ handled, c.node i = recast (on (m.side i)) handled (m.control.node i)
  client : c.client i =
    clientView (late (m.side i)) i ((m.side i).pc .client) (m.control.client i)
  proposer : c.proposer i = proposerView i ((m.side i).pc .proposer) (m.control.proposer i)
  joining : late (m.side i) = true → m.control.client i = .joining
  ring : ∀ j, c.ring i j = unread ((m.side i).ring j)

structure Related (r : RingShape) (m : MemoryCluster) (c : Cluster) : Prop where
  inv : MemoryInv r m
  beside : ∀ i, Beside m c i
  recv : ∀ j src, List.Forall₂ SameMessage (c.recv j src) (m.control.recv j src)
  exited : ∀ j src, c.recvExited j src = (m.control.recvExited j src && !late (m.side j))
  finished : c.nodeFinished = m.control.nodeFinished
  input : c.input = m.control.input

section
variable {hash : Bytes → Nat} {r : RingShape} {m m' : MemoryCluster} {c c' : Cluster} {i : NodeId}

theorem late_of_outside {side : SendSide Sender} (outside : side.pc .proposer = .outside) :
    late side = false ∧ on side = side.running := by
  rw [late, on, outside]
  simp [pushing]

/-! ### What a thread outside its calls finds -/

/-- The client is outside `broadcast_batch` and has not left `main`'s loop. -/
theorem Related.atClient (h : Related r m c) (not : sendsBatch (m.control.client i) = false)
    (early : m.control.client i ≠ .joining) :
    c.client i = m.control.client i ∧ (m.side i).pc .client = .outside ∧
      late (m.side i) = false := by
  have outside := (h.inv.client i).outside not
  have punctual : late (m.side i) = false :=
    Bool.eq_false_iff.mpr fun tardy => early ((h.beside i).joining tardy)
  refine ⟨?_, outside, punctual⟩
  rw [(h.beside i).client, outside, punctual]
  rfl

/-- The proposer is outside `broadcast`. -/
theorem Related.atProposer (h : Related r m c) (not : sendsNoop (m.control.proposer i) = false) :
    c.proposer i = m.control.proposer i ∧ (m.side i).pc .proposer = .outside ∧
      late (m.side i) = false ∧ on (m.side i) = (m.control.node i).running := by
  have outside := (h.inv.proposer i).outside not
  refine ⟨?_, outside, (late_of_outside outside).1, ?_⟩
  · rw [(h.beside i).proposer, outside]
    rfl
  · rw [(late_of_outside outside).2, h.inv.flags]

theorem Related.running (h : Related r m c) : (c.node i).running = on (m.side i) := by
  obtain ⟨handled, same⟩ := (h.beside i).node
  rw [same]
  rfl

theorem Related.cfg (h : Related r m c) : (c.node i).cfg = (m.control.node i).cfg := by
  obtain ⟨handled, same⟩ := (h.beside i).node
  rw [same]
  rfl

theorem Related.allFinished (h : Related r m c) :
    c.allNodesFinished = m.control.allNodesFinished := by
  rw [Cluster.allNodesFinished, h.finished]
  rfl

/-! ### Steps of one node -/

/-- Nothing of node `k` has changed. -/
structure Untouched (m m' : MemoryCluster) (c c' : Cluster) (k : NodeId) : Prop where
  side : m'.side k = m.side k
  node : m'.control.node k = m.control.node k ∧ c'.node k = c.node k
  client : m'.control.client k = m.control.client k ∧ c'.client k = c.client k
  proposer : m'.control.proposer k = m.control.proposer k ∧ c'.proposer k = c.proposer k
  ring : c'.ring k = c.ring k

/-- The node's threads and state stay, and its rings are read. -/
theorem Beside.reread {k : NodeId} (h : Beside m c k)
    (pcs : (m'.side k).pc = (m.side k).pc ∧ (m'.side k).running = (m.side k).running)
    (node : m'.control.node k = m.control.node k ∧ c'.node k = c.node k)
    (client : m'.control.client k = m.control.client k ∧ c'.client k = c.client k)
    (proposer : m'.control.proposer k = m.control.proposer k ∧ c'.proposer k = c.proposer k)
    (ring : ∀ p, c'.ring k p = unread ((m'.side k).ring p)) : Beside m' c' k where
  node := by
    rw [node.1, node.2, on, pcs.1, pcs.2]
    exact h.node
  client := by
    rw [client.1, client.2, late, pcs.1, pcs.2]
    exact h.client
  proposer := by
    rw [proposer.1, proposer.2, pcs.1]
    exact h.proposer
  joining := by
    rw [client.1, late, pcs.1, pcs.2]
    exact h.joining
  ring := ring

theorem Beside.untouched {k : NodeId} (h : Beside m c k) (same : Untouched m m' c c' k) :
    Beside m' c' k := by
  refine h.reread (by rw [same.side]; exact ⟨rfl, rfl⟩) same.node same.client same.proposer
    fun p => ?_
  rw [same.side, same.ring]
  exact h.ring p

/-- Receivers and `main`'s flags stay as they are. -/
structure Inert (m m' : MemoryCluster) (c c' : Cluster) : Prop where
  recv : m'.control.recv = m.control.recv ∧ c'.recv = c.recv
  exited : m'.control.recvExited = m.control.recvExited ∧ c'.recvExited = c.recvExited
  finished : c'.nodeFinished = m'.control.nodeFinished
  input : c'.input = m'.control.input

theorem Related.atNode (h : Related r m c) (inv : MemoryInv r m') (beside : Beside m' c' i)
    (others : ∀ k, k ≠ i → Untouched m m' c c' k) (inert : Inert m m' c c')
    (tardy : late (m'.side i) = late (m.side i)) : Related r m' c' where
  inv := inv
  beside k := by
    by_cases here : k = i
    · rw [here]
      exact beside
    · exact (h.beside k).untouched (others k here)
  recv j src := by
    rw [inert.recv.1, inert.recv.2]
    exact h.recv j src
  exited j src := by
    rw [inert.exited.1, inert.exited.2, h.exited]
    by_cases here : j = i
    · rw [here, tardy]
    · rw [(others j here).side]
  finished := inert.finished
  input := inert.input

/-- A node's client moves, and the node with it. -/
theorem Related.moveClient (h : Related r m c) (pc : ClientPc) {n n' : Bandle}
    {handled : List BandleMessage} {finished finished' : NodeId → Bool}
    {input input' : NodeId → List (List BorrowedRequest)} {control : Cluster}
    (not : sendsBatch (m.control.client i) = false) (punctual : late (m.side i) = false)
    (node : n' = recast (on (m.side i)) handled n)
    (moved : control = { (m.control.setNode i n).setClient i pc with
      nodeFinished := finished, input := input })
    (moved' : c' = { (c.setNode i n').setClient i pc with
      nodeFinished := finished', input := input' })
    (flags : finished' = finished) (calls : input' = input)
    (inv : MemoryInv r { m with control := control }) :
    Related r { m with control := control } c' := by
  have outside := (h.inv.client i).outside not
  subst moved moved'
  refine h.atNode (i := i) inv ⟨⟨handled, ?_⟩, ?_, ?_, ?_, ?_⟩ (fun k other => ?_)
    ⟨⟨rfl, rfl⟩, ⟨rfl, rfl⟩, flags, calls⟩ rfl
  · simp only [Cluster.setNode, Cluster.setClient, Function.update_self]
    exact node
  · simp only [Cluster.setNode, Cluster.setClient, Function.update_self, outside, punctual]
    rfl
  · exact (h.beside i).proposer
  · intro tardy
    rw [punctual] at tardy
    cases tardy
  · exact (h.beside i).ring
  · constructor <;>
      simp only [Cluster.setNode, Cluster.setClient, Function.update_of_ne other, and_self]

/-- A node's proposer moves, and the node with it. -/
theorem Related.moveProposer (h : Related r m c) (n n' : Bandle) {pc : ProposerPc}
    {handled : List BandleMessage} {control : Cluster}
    (not : sendsNoop (m.control.proposer i) = false)
    (node : n' = recast (on (m.side i)) handled n)
    (moved : control = (m.control.setNode i n).setProposer i pc)
    (moved' : c' = (c.setNode i n').setProposer i pc)
    (inv : MemoryInv r { m with control := control }) :
    Related r { m with control := control } c' := by
  obtain ⟨same, outside, punctual, -⟩ := h.atProposer not
  subst moved moved'
  refine h.atNode (i := i) inv ⟨⟨handled, ?_⟩, ?_, ?_, ?_, ?_⟩ (fun k other => ?_)
    ⟨⟨rfl, rfl⟩, ⟨rfl, rfl⟩, h.finished, h.input⟩ rfl
  · simp only [Cluster.setNode, Cluster.setProposer, Function.update_self]
    exact node
  · exact (h.beside i).client
  · simp only [Cluster.setNode, Cluster.setProposer, Function.update_self, outside]
    rfl
  · exact (h.beside i).joining
  · exact (h.beside i).ring
  · constructor <;>
      simp only [Cluster.setNode, Cluster.setProposer, Function.update_of_ne other, and_self]

theorem setNode_self (c : Cluster) (i : NodeId) : c.setNode i (c.node i) = c := by
  rw [Cluster.setNode, Function.update_eq_self]

theorem forall₂_chunk {R : BandleMessage → BandleMessage → Prop} {sent got : List BandleMessage}
    (same : List.Forall₂ R sent got) (n : Nat) :
    List.Forall₂ R (sent.take n) (got.take n) ∧ List.Forall₂ R (sent.drop n) (got.drop n) :=
  ⟨List.forall₂_take n same, List.forall₂_drop n same⟩

/-- A batch is handled as it was sent. -/
theorem Related.handle (h : Related r m c) {j src : NodeId} {tsc : Nat → Nat} {control : Cluster}
    (fires : Fires hash m.control (.handle j src tsc) control)
    (inv : MemoryInv r { m with control := control }) :
    ∃ c', c.step hash (.handle j src tsc) = some c' ∧
      Related r { m with control := control } c' := by
  cases fires with
  | handle batch =>
    have held : c.recv j src ≠ [] := by
      intro empty
      have same := h.recv j src
      rw [empty] at same
      exact batch (List.forall₂_nil_left_iff.mp same)
    obtain ⟨first, later⟩ := forall₂_chunk (h.recv j src) kHandleChunk
    obtain ⟨handled, node⟩ := (h.beside j).node
    obtain ⟨after, done⟩ := handleChunk_recast hash tsc (on (m.side j))
      (m.control.node j) first handled
    rw [← node] at done
    refine ⟨_, if_neg held, ?_⟩
    constructor
    · exact inv
    · intro k
      by_cases here : k = j
      · subst k
        refine ⟨⟨after, ?_⟩, (h.beside j).client, (h.beside j).proposer, (h.beside j).joining,
          (h.beside j).ring⟩
        simp only [Cluster.setNode, Cluster.setRecv, Function.update_self]
        exact done
      · refine (h.beside k).untouched ⟨rfl, ?_, ⟨rfl, rfl⟩, ⟨rfl, rfl⟩, rfl⟩
        simp only [Cluster.setNode, Cluster.setRecv, Function.update_of_ne here, and_self]
    · intro k from_
      simp only [Cluster.setNode, Cluster.setRecv]
      by_cases here : k = j
      · subst k
        rw [Function.update_self, Function.update_self]
        by_cases there : from_ = src
        · rw [there, Function.update_self, Function.update_self]
          exact later
        · rw [Function.update_of_ne there, Function.update_of_ne there]
          exact h.recv j from_
      · rw [Function.update_of_ne here, Function.update_of_ne here]
        exact h.recv k from_
    · exact h.exited
    · exact h.finished
    · exact h.input

/-- A thread that is in no call on the rings moves as in the system with queues. -/
theorem Related.plain (h : Related r m c) {a : Action} {control : Cluster}
    (fires : Fires hash m.control a control) (simple : plain a = true) :
    ∃ c', c.step hash a = some c' ∧ Related r { m with control := control } c' := by
  have inv := h.inv.plain fires simple
  cases fires with
  | admission | ready | abandon | publish | published | stop | drain | recvExit | noopNumber
  | noopSend | noopSent | noopDrop => cases simple
  | handle batch => exact h.handle (.handle batch) inv
  | @submit i bufs batch later pc todo =>
    obtain ⟨handled, node⟩ := (h.beside i).node
    have not : sendsBatch (m.control.client i) = false := by rw [pc]; rfl
    obtain ⟨same, -, punctual⟩ := h.atClient not (by simp [pc])
    have built : buildProposals bufs batch (c.node i, []) =
        (buildProposals bufs batch (m.control.node i, [])).map (recast (on (m.side i)) handled)
          id := by
      rw [node]
      exact buildProposals_recast bufs batch (_, [])
    have stepped : c.step hash (.submit i bufs) = some { (c.setNode i
        (recast (on (m.side i)) handled
          (buildProposals bufs batch (m.control.node i, [])).1)).setClient i (nextChunk
            (admissionBatchCapacity (buildProposals bufs batch (m.control.node i, [])).2.length
              (m.control.node i).cfg.admissionBatch)
            (buildProposals bufs batch (m.control.node i, [])).2) with
        input := Function.update c.input i later } := by
      simp only [Cluster.step, Cluster.submitStep, same, pc, h.input, todo, built, h.cfg]
      rfl
    exact ⟨_, stepped, h.moveClient _ not punctual rfl rfl rfl h.finished (by rw [h.input]) inv⟩
  | @selfDeliver i tsc cap chunk rest pc =>
    obtain ⟨handled, node⟩ := (h.beside i).node
    have not : sendsBatch (m.control.client i) = false := by rw [pc]; rfl
    obtain ⟨same, -, punctual⟩ := h.atClient not (by simp [pc])
    obtain ⟨after, done⟩ := selfDeliver_recast hash tsc (on (m.side i))
      (m.control.node i) chunk handled
    refine ⟨_, ?_, h.moveClient _ not punctual done rfl rfl h.finished h.input inv⟩
    simp only [Cluster.step, Cluster.selfDeliverStep, same, pc, node]
    rfl
  | @markInputDone i pc todo =>
    obtain ⟨handled, node⟩ := (h.beside i).node
    have not : sendsBatch (m.control.client i) = false := by rw [pc]; rfl
    obtain ⟨same, -, punctual⟩ := h.atClient not (by simp [pc])
    have spent : c.input i = [] := by rw [h.input, todo]
    refine ⟨_, ?_, h.moveClient _ not punctual (Eq.refl (recast (on (m.side i)) handled _)) rfl rfl
      h.finished h.input inv⟩
    simp only [Cluster.step, Cluster.markInputDoneStep, same, pc, spent, node]
    rfl
  | @pendingDone i pc done =>
    obtain ⟨handled, node⟩ := (h.beside i).node
    have not : sendsBatch (m.control.client i) = false := by rw [pc]; rfl
    obtain ⟨same, -, punctual⟩ := h.atClient not (by simp [pc])
    have runs : (m.control.node i).running = true := by
      rw [← Bool.not_eq_false, h.inv.stops, pc]
      exact Bool.noConfusion
    have none : (c.node i).acct.pendingCount = 0 := by
      rw [runs] at done
      rw [node]
      exact done.resolve_right Bool.noConfusion
    have stepped : c.step hash (.pendingDone i) = some { c.setClient i .barrier with
        nodeFinished := Function.update c.nodeFinished i true } := by
      simp only [Cluster.step, Cluster.pendingDoneStep, same, pc]
      exact if_pos (Or.inl none)
    have flags : Function.update c.nodeFinished i true =
        Function.update m.control.nodeFinished i true := by rw [h.finished]
    exact ⟨_, stepped, h.moveClient .barrier not punctual node (by rw [setNode_self]; rfl)
      (by rw [setNode_self]; rfl) flags h.input inv⟩
  | @join i pc exited receivers =>
    obtain ⟨handled, node⟩ := (h.beside i).node
    have not : sendsBatch (m.control.client i) = false := by rw [pc]; rfl
    obtain ⟨gone, -, punctual, -⟩ := h.atProposer (i := i) (by rw [exited]; rfl)
    have same : c.client i = .joining := by
      rw [(h.beside i).client, (h.inv.client i).outside not, punctual, pc]
      rfl
    have left : ∀ src ∈ peersOf i, c.recvExited i src = true := by
      intro src member
      rw [h.exited, receivers src member, punctual]
      rfl
    have stepped : c.step hash (.join i) = some (c.setClient i .stopped) := by
      simp only [Cluster.step, Cluster.joinStep, same, gone, exited]
      exact if_pos left
    exact ⟨_, stepped, h.moveClient .stopped not punctual node (by rw [setNode_self]; rfl)
      (by rw [setNode_self]; rfl) h.finished h.input inv⟩
  | @noopCheck i now pc running due =>
    obtain ⟨handled, node⟩ := (h.beside i).node
    have not : sendsNoop (m.control.proposer i) = false := by rw [pc]; rfl
    obtain ⟨same, -, -, active⟩ := h.atProposer not
    have asked : (c.node i).running = true ∧
        (c.node i).shouldProposeNoopLocked c.allNodesFinished now = true := by
      rw [h.running, active, h.allFinished, node]
      exact ⟨running, due⟩
    refine ⟨_, ?_, h.moveProposer (m.control.node i) (c.node i) not node
      (by rw [setNode_self]) (by rw [setNode_self]) inv⟩
    simp only [Cluster.step, Cluster.noopCheckStep, same, pc]
    exact if_pos asked
  | @noopRead i pc =>
    obtain ⟨handled, node⟩ := (h.beside i).node
    have not : sendsNoop (m.control.proposer i) = false := by rw [pc]; rfl
    obtain ⟨same, -, -, active⟩ := h.atProposer not
    refine ⟨_, ?_, h.moveProposer (m.control.node i) (c.node i) not node
      (by rw [setNode_self]) (by rw [setNode_self]) inv⟩
    simp only [Cluster.step, Cluster.noopReadStep, same, pc, node]
    rfl
  | @noopDeliver i tsc p pc =>
    obtain ⟨handled, node⟩ := (h.beside i).node
    have not : sendsNoop (m.control.proposer i) = false := by rw [pc]; rfl
    obtain ⟨same, -, -, active⟩ := h.atProposer not
    have done := handleProposal_recast hash tsc (on (m.side i)) handled
      (m.control.node i) (.refl p) true
    refine ⟨_, ?_, h.moveProposer _ _ not done rfl rfl inv⟩
    simp only [Cluster.step, Cluster.noopDeliverStep, same, pc, node]
  | @proposerExit i pc stopped =>
    obtain ⟨handled, node⟩ := (h.beside i).node
    have not : sendsNoop (m.control.proposer i) = false := by rw [pc]; rfl
    obtain ⟨same, -, -, active⟩ := h.atProposer not
    have halted : (c.node i).running = false := by rw [h.running, active, stopped]
    refine ⟨_, ?_, h.moveProposer (m.control.node i) (c.node i) not node
      (by rw [setNode_self]) (by rw [setNode_self]) inv⟩
    simp only [Cluster.step, Cluster.proposerExitStep, same, pc, halted]
    rfl

end

end BandleCxl.Invariant
