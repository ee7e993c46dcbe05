import BandleCxl.Guarantees.OrderedBroadcast
import BandleCxl.Invariant.MemorySteps
import BandleCxl.Library.Simulation

/-!
Three replicas whose threads send and receive access by access refine the replicas that pass
messages through queues: a batch appears on a queue as a whole when a head is stored, and is
taken off it as a whole when the tail is.
-/
namespace BandleCxl.Guarantees
open Library Source Invariant Bandle

variable {hash : Bytes → Nat} {d : Deployment} {r : RingShape} {m m' : MemoryCluster} {c : Cluster}

theorem related_initial (start : (memorySystem hash d r).init m) :
    Related r m (Cluster.initial d) := by
  have inv := MemoryInv.initial start
  obtain ⟨control, sides⟩ := start
  have quiet : ∀ i, (m.side i).running = true ∧ (∀ u, (m.side i).pc u = .outside) ∧
      ∀ j, unread ((m.side i).ring j) = [] := by
    intro i
    obtain ⟨running, outside, started⟩ := send_start (sides i)
    refine ⟨running, outside, fun j => ?_⟩
    obtain ⟨descs, out, first⟩ := started j
    rw [first]
    rfl
  have present : ∀ i, late (m.side i) = false ∧ on (m.side i) = true := by
    intro i
    rw [late, on, (quiet i).1]
    exact ⟨rfl, rfl⟩
  refine ⟨inv, fun i => ⟨⟨[], ?_⟩, ?_, ?_, fun tardy => ?_, fun j => ?_⟩, fun j src => ?_,
    fun j src => ?_, ?_, ?_⟩
  · rw [(present i).2, control]
    rfl
  · rw [(present i).1, (quiet i).2.1, control]
    rfl
  · rw [(quiet i).2.1, control]
    rfl
  · rw [(present i).1] at tardy
    cases tardy
  · rw [(quiet i).2.2]
    rfl
  · rw [control]
    exact .nil
  · rw [control]
    rfl
  · rw [control]
  · rw [control]

/-- A chunk that was admitted is not empty, and every message of it fits in a slot. -/
theorem admitted_fits (h : Related r m c) (reached : (clusterSystem hash d).Reachable c)
    {i : NodeId} {tsc : Nat → Nat} {control : Cluster} {cap : Nat} {msgs rest : List BandleMessage}
    (fires : Fires hash m.control (.admission i tsc) control)
    (pc : control.client i = .broadcast cap msgs rest) : msgs ≠ [] ∧ Fits msgs = true := by
  cases fires with
  | @admission _ _ cap' chunk rest' before admits =>
    have numbered : (numberChunk tsc (m.control.node i) chunk).2 = msgs := by
      simp only [Cluster.setClient, Function.update_self, ClientPc.broadcast.injEq] at pc
      exact pc.2.1
    obtain ⟨same, -, -⟩ := h.atClient (i := i) (by rw [before]; rfl) (by simp [before])
    have known := (control_reachable reached).node i
    have shaped := known.client
    have built := known.built
    rw [same, before] at shaped built
    have wf : ∀ msg ∈ chunk, WellFormed (number i) msg :=
      fun msg member => built msg (List.mem_append_left _ member)
    rw [← numbered]
    refine ⟨fun empty => shaped.2.2.1 ?_, fits_of_wellFormed (WellFormed.numberChunk _ wf)⟩
    have length := congrArg List.length empty
    rw [numberChunk_length] at length
    exact List.length_eq_zero_iff.mp length

theorem run_single {a : Action} {c' : Cluster} (stepped : c.step hash a = some c') :
    (clusterSystem hash d).run c [a] = some c' := by
  simp only [TransitionSystem.run, clusterSystem, stepped]
  rfl

theorem related_thread (h : Related r m c) (reached : (clusterSystem hash d).Reachable c)
    {a : Action} (stepped : m.threadStep hash a = some m') :
    ∃ schedule c', (clusterSystem hash d).run c schedule = some c' ∧ Related r m' c' := by
  cases threadMoves_of_step stepped with
  | plain fires simple =>
    obtain ⟨c', step, related⟩ := h.plain fires simple
    exact ⟨_, c', run_single step, related⟩
  | admission fires pc called =>
    obtain ⟨some, fits⟩ := admitted_fits h reached fires pc
    obtain ⟨c', step, related⟩ := h.admission fires pc called some fits
    exact ⟨_, c', run_single step, related⟩
  | noopNumber fires pc called =>
    obtain ⟨c', step, related⟩ := h.noopNumber fires pc called
    exact ⟨_, c', run_single step, related⟩
  | stop fires => exact h.stop fires
  | recvExit fires idle => exact h.recvExit fires idle

/-- A step of a sender inside its call. -/
theorem related_sends (h : Related r m c) (coherent : r.coherent = true)
    (full : r.capacity = kBandleRingCapacity) {i : NodeId} {u : Sender} {side : SendSide Sender}
    (inv : SendInv r i side) (moved : Moved i (m.side i) u side) :
    ∃ schedule c', (clusterSystem hash d).run c schedule = some c' ∧
      Related r (m.setSide i side) c' := by
  have kept := h.inv.send inv moved
  cases u with
  | client => exact h.clientSends coherent full kept moved
  | proposer => exact h.proposerSends coherent full kept moved

theorem related_step (coherent : r.coherent = true) (full : r.capacity = kBandleRingCapacity)
    (reached : (clusterSystem hash d).Reachable c) (h : Related r m c) {a : MemoryAction}
    (stepped : (memorySystem hash d r).step m a = some m') :
    ∃ schedule c', (clusterSystem hash d).run c schedule = some c' ∧ Related r m' c' := by
  cases a with
  | thread a => exact related_thread h reached stepped
  | lock i u =>
    obtain ⟨side, locked, rfl⟩ := Option.map_eq_some_iff.mp stepped
    exact related_sends h coherent full ((h.inv.sides i).lock locked) (moved_lock locked)
  | loadRunning i u =>
    obtain ⟨side, loaded, rfl⟩ := Option.map_eq_some_iff.mp stepped
    exact related_sends h coherent full ((h.inv.sides i).loadRunning loaded)
      (moved_loadRunning loaded)
  | access i u v =>
    obtain ⟨side, accessed, rfl⟩ := Option.map_eq_some_iff.mp stepped
    exact related_sends h coherent full ((h.inv.sides i).access accessed)
      (moved_access (h.inv.sides i) accessed)
  | unlock i u => exact ⟨[], c, rfl, h.unlock stepped⟩
  | consume j src a => exact h.consume coherent stepped

/-- What the replicas over queues have in common with those over shared memory. A queue holds
what is published and not committed; a batch in a receiver's hands is field by field what was
sent; a thread stands where its calls have taken effect; and a node differs at most in its record
of handled messages and, while the proposer is in a push, in a flag that is cleared already. -/
structure Shows (m : MemoryCluster) (c : Cluster) : Prop where
  node : ∀ i, ∃ handled, c.node i = recast (on (m.side i)) handled (m.control.node i)
  client : ∀ i, c.client i =
    clientView (late (m.side i)) i ((m.side i).pc .client) (m.control.client i)
  proposer : ∀ i, c.proposer i =
    proposerView i ((m.side i).pc .proposer) (m.control.proposer i)
  ring : ∀ i j, c.ring i j = unread ((m.side i).ring j)
  recv : ∀ j src, List.Forall₂ SameMessage (c.recv j src) (m.control.recv j src)
  exited : ∀ j src, c.recvExited j src = (m.control.recvExited j src && !late (m.side j))
  finished : c.nodeFinished = m.control.nodeFinished
  input : c.input = m.control.input

theorem shows_of_related (h : Related r m c) : Shows m c where
  node i := (h.beside i).node
  client i := (h.beside i).client
  proposer i := (h.beside i).proposer
  ring i := (h.beside i).ring
  recv := h.recv
  exited := h.exited
  finished := h.finished
  input := h.input

theorem exists_queues (coherent : r.coherent = true) (full : r.capacity = kBandleRingCapacity)
    (run : (memorySystem hash d r).Execution) :
    ∃ (queues : (clusterSystem hash d).Execution) (moment : Nat → Nat), StrictMono moment ∧
      ∀ k, Related r (run.state k) (queues.state (moment k)) :=
  run.simulated (fun _ start => ⟨Cluster.initial d, rfl, related_initial start⟩)
    fun _ _ _ _ reachable related stepped => related_step coherent full reachable related stepped

/-- Every run of the replicas over shared memory, where coherent rings of `kBandleRingCapacity`
slots are written and read access by access, shows at its moments a run of the replicas over
queues of the same capacity. -/
theorem memory_refines_queues (hash : Bytes → Nat) (d : Deployment) (r : RingShape)
    (coherent : r.coherent = true) (full : r.capacity = kBandleRingCapacity)
    (run : (memorySystem hash d r).Execution) :
    ∃ (queues : (clusterSystem hash d).Execution) (moment : Nat → Nat), StrictMono moment ∧
      ∀ k, Shows (run.state k) (queues.state (moment k)) := by
  obtain ⟨queues, moment, later, related⟩ := exists_queues coherent full run
  exact ⟨queues, moment, later, fun k => shows_of_related (related k)⟩

def freshReplicas (d : Deployment) : MemoryCluster where
  control := Cluster.initial d
  side _ := {
    running := true
    owner := none
    pc _ := .outside
    ring _ := freshRing
    log := []
    locked := []
    calls _ := [] }

theorem freshReplicas_start (hash : Bytes → Nat) (d : Deployment) (r : RingShape) :
    (memorySystem hash d r).init (freshReplicas d) :=
  ⟨rfl, fun _ => ⟨fun _ => freshRing, fun _ => freshRing_start r, rfl⟩⟩

/-- The run along a schedule from that state. -/
def runOf (hash : Bytes → Nat) (d : Deployment) (schedule : List MemoryAction) :
    (memorySystem hash d (bandleRing true)).Execution :=
  .ofSchedule _ (freshReplicas_start hash d (bandleRing true)) schedule

theorem runOf_state (hash : Bytes → Nat) (d : Deployment) (schedule : List MemoryAction) (k : Nat)
    (ran : (memorySystem hash d (bandleRing true)).run (freshReplicas d) (schedule.take k) =
      some m) : (runOf hash d schedule).state k = m :=
  TransitionSystem.Execution.state_ofSchedule _ schedule k ran

/-- Node 1 sends its write to both peers, access by access. -/
def sendWrite : List MemoryAction :=
  [.thread (.submit 0 fun _ _ => 0), .thread (.admission 0 fun _ => 0), .lock 0 .client,
    .loadRunning 0 .client, .access 0 .client 0, .access 0 .client 0, .access 0 .client 0,
    .access 0 .client 0, .access 0 .client 0, .access 0 .client 0, .access 0 .client 0,
    .access 0 .client 0, .access 0 .client 0, .access 0 .client 0, .access 0 .client 0,
    .access 0 .client 0, .unlock 0 .client]

/-- Node 2 takes it from the ring. -/
def takeWrite : List MemoryAction :=
  [.consume 1 0 (.startPop (.drain 128)), .consume 1 0 .loadTailOwn, .consume 1 0 (.loadHeadPeer 1),
    .consume 1 0 (.readDescriptor false), .consume 1 0 (.readPayload false), .consume 1 0 .finish,
    .consume 1 0 .storeTail]

def sending : (memorySystem List.length oneWrite (bandleRing true)).Execution :=
  runOf List.length oneWrite (sendWrite ++ takeWrite)

theorem memory_refines_queues_sending :
    ∃ (queues : (clusterSystem List.length oneWrite).Execution) (k : Nat),
      (queues.state k).ring 0 1 = [] ∧ ((queues.state k).ring 0 2).length = 1 ∧
        ((queues.state k).recv 1 0).length = 1 := by
  obtain ⟨queues, moment, -, shows⟩ :=
    memory_refines_queues List.length oneWrite (bandleRing true) rfl rfl sending
  have sent := shows 24
  rw [sending, runOf_state _ _ _ 24 rfl] at sent
  exact ⟨queues, moment 24, sent.ring 0 1, (congrArg List.length (sent.ring 0 2)).trans rfl,
    (sent.recv 1 0).length_eq.trans rfl⟩

end BandleCxl.Guarantees
