import BandleCxl.Invariant.MemoryCluster

/-!
The steps inside the calls on the rings keep the invariant: a sender moves, a call of a sender
returns, a receive thread reads and commits.
-/
namespace BandleCxl.Invariant
open Library Source Bandle

variable {hash : Bytes → Nat} {r : RingShape} {d : Deployment} {s t : MemoryCluster}

/-! ### Senders -/

/-- A step of a sender inside its call. -/
theorem MemoryInv.send (h : MemoryInv r s) {i : NodeId} {u : Sender} {side : SendSide Sender}
    (inv : SendInv r i side) (moved : Moved i (s.side i) u side) :
    MemoryInv r (s.setSide i side) := by
  obtain ⟨sent, move, -⟩ := moved.move
  have quiet : Quiet s.control s.control :=
    ⟨fun _ => rfl, fun _ => rfl, fun _ => rfl, fun _ done => done, rfl,
      fun _ _ => List.suffix_refl _, rfl⟩
  refine h.keep quiet (h.sent inv moved.running moved.readers) (fun k => ?_) fun k => ?_
  · by_cases here : k = i
    · subst k
      rw [Function.update_self]
      cases u with
      | client => exact (h.client i).move move
      | proposer =>
        rw [moved.others .client (by decide)]
        exact h.client i
    · rw [Function.update_of_ne here]
      exact h.client k
  · by_cases here : k = i
    · subst k
      rw [Function.update_self]
      cases u with
      | client =>
        rw [moved.others .proposer (by decide)]
        exact h.proposer i
      | proposer => exact (h.proposer i).move move
    · rw [Function.update_of_ne here]
      exact h.proposer k

/-- What the return from a call on the rings is. -/
inductive Unlocks (s : MemoryCluster) (i : NodeId) (side : SendSide Sender) :
    Sender → MemoryCluster → Prop
  | client {cap : Nat} {chunk rest : List BandleMessage}
      (pc : s.control.client i = .broadcast cap chunk rest) :
      Unlocks s i side .client
        { s.setSide i side with control := s.control.setClient i (.deliver cap chunk rest) }
  | proposer {p : BandleMessage} {peers : List NodeId} (pc : s.control.proposer i = .send p peers) :
      Unlocks s i side .proposer
        { s.setSide i side with control := s.control.setProposer i (.deliver p) }

theorem unlockStep_cases {i : NodeId} {u : Sender} (stepped : s.unlockStep i u = some t) :
    ∃ side, (s.side i).unlockStep u = some side ∧ Unlocks s i side u t := by
  unfold MemoryCluster.unlockStep at stepped
  split at stepped
  · next side cap chunk rest pc unlocked =>
    cases stepped
    exact ⟨side, unlocked, .client pc⟩
  · next side p peers pc unlocked =>
    cases stepped
    exact ⟨side, unlocked, .proposer pc⟩
  · cases stepped

theorem sideUnlock_cases {side side' : SendSide Sender} {u : Sender}
    (stepped : side.unlockStep u = some side') :
    side.pc u = .leaving ∧ side' = { side.setPc u .outside with owner := none } := by
  unfold SendSide.unlockStep at stepped
  split at stepped
  · next here => exact ⟨here, (Option.some.inj stepped).symm⟩
  · cases stepped

theorem MemoryInv.unlock (h : MemoryInv r s) {i : NodeId} {u : Sender}
    (stepped : s.unlockStep i u = some t) : MemoryInv r t := by
  obtain ⟨side, unlocked, unlocks⟩ := unlockStep_cases stepped
  have inv := (h.sides i).unlock unlocked
  obtain ⟨here, rfl⟩ := sideUnlock_cases unlocked
  have sent := h.sent inv rfl fun _ => .refl _
  have pcs : ∀ v, v ≠ u → ((s.side i).setPc u .outside).pc v = (s.side i).pc v :=
    fun v other => Function.update_of_ne other _ _
  cases unlocks with
  | client pc =>
    change MemoryInv r { control := _, side := Function.update s.side i _ }
    refine h.keep (.setClient _ (by rw [pc]; rfl)) sent (fun k => ?_) fun k => ?_
    · by_cases same : k = i
      · subst k
        simp only [Cluster.setClient, SendSide.setPc, Function.update_self]
        rfl
      · simp only [Cluster.setClient]
        rw [Function.update_of_ne same, Function.update_of_ne same]
        exact h.client k
    · by_cases same : k = i
      · subst k
        rw [Function.update_self]
        dsimp only
        rw [pcs .proposer (by decide)]
        exact h.proposer i
      · rw [Function.update_of_ne same]
        exact h.proposer k
  | proposer pc =>
    change MemoryInv r { control := _, side := Function.update s.side i _ }
    refine h.keep (.setProposer _ i _) sent (fun k => ?_) fun k => ?_
    · by_cases same : k = i
      · subst k
        rw [Function.update_self]
        dsimp only
        rw [pcs .client (by decide)]
        exact h.client i
      · rw [Function.update_of_ne same]
        exact h.client k
    · by_cases same : k = i
      · subst k
        simp only [Cluster.setProposer, SendSide.setPc, Function.update_self]
        rfl
      · simp only [Cluster.setProposer]
        rw [Function.update_of_ne same, Function.update_of_ne same]
        exact h.proposer k

/-! ### Receivers -/

/-- A step of a receive thread on the ring from `src` to `j`. -/
structure Consumes (r : RingShape) (s : MemoryCluster) (j src : NodeId) (a : RingAction)
    (ring : SpscRing) : Prop where
  peer : src ∈ peersOf j
  asks : s.Drains j src a
  reads : a.isConsumer = true
  stepped : ((s.side src).ring j).step r a = some ring

theorem consumeStep_cases {j src : NodeId} {a : RingAction}
    (stepped : s.consumeStep r j src a = some t) :
    ∃ ring, Consumes r s j src a ring ∧
      t = { s.setSide src ((s.side src).setRing j ring) with control := s.received j src a } := by
  unfold MemoryCluster.consumeStep at stepped
  split at stepped
  · next asks =>
    obtain ⟨side, moved, rfl⟩ := Option.map_eq_some_iff.mp stepped
    unfold SendSide.consumeStep at moved
    split at moved
    · next reads =>
      obtain ⟨ring, ringStep, rfl⟩ := Option.map_eq_some_iff.mp moved
      exact ⟨ring, ⟨asks.1, asks.2, reads, ringStep⟩, rfl⟩
    · cases moved
  · cases stepped

/-- The rings after one of them has moved. -/
theorem ring_update (side : NodeId → SendSide Sender) (j src : NodeId) (ring : SpscRing)
    (k p : NodeId) :
    (Function.update side src ((side src).setRing j ring) k).ring p =
      if k = src ∧ p = j then ring else (side k).ring p := by
  by_cases from_ : k = src
  · subst k
    rw [Function.update_self]
    change Function.update (side src).ring j ring p = _
    by_cases at_ : p = j
    · rw [at_, Function.update_self, if_pos ⟨rfl, rfl⟩]
    · rw [Function.update_of_ne at_, if_neg fun both => at_ both.2]
  · rw [Function.update_of_ne from_, if_neg fun both => from_ both.1]

theorem pc_update (side : NodeId → SendSide Sender) (j src : NodeId) (ring : SpscRing)
    (k : NodeId) :
    (Function.update side src ((side src).setRing j ring) k).pc = (side k).pc ∧
      (Function.update side src ((side src).setRing j ring) k).running = (side k).running := by
  by_cases from_ : k = src
  · subst k
    rw [Function.update_self]
    exact ⟨rfl, rfl⟩
  · rw [Function.update_of_ne from_]
    exact ⟨rfl, rfl⟩

/-- While one source is drained by the only receive thread, no other is. -/
theorem MemoryInv.busy_after (h : MemoryInv r s) {j src : NodeId} {a : RingAction}
    {ring : SpscRing} (consumes : Consumes r s j src a ring) {k from_ : NodeId}
    (reads : (if from_ = src ∧ k = j then ring else
      (s.side from_).ring k).consumer.isIdle = false) :
    Draining s k from_ ∧ ((s.control.node k).cfg.pipelineWorkers ≤ 1 → ∀ other ∈ peersOf k,
      other ≠ from_ →
        (if other = src ∧ k = j then ring else (s.side other).ring k).consumer.isIdle = true) := by
  by_cases here : from_ = src ∧ k = j
  · obtain ⟨rfl, rfl⟩ := here
    rw [if_pos ⟨rfl, rfl⟩] at reads
    have draining : Draining s k from_ := by
      cases before : ((s.side from_).ring k).consumer.isIdle with
      | false => exact h.busy k from_ before
      | true =>
        rcases idle_step before consumes.reads consumes.stepped with after | ⟨call, rfl⟩
        · rw [after] at reads
          cases reads
        · cases call with
          | pop => exact consumes.asks.elim
          | drain maxBatch =>
            obtain ⟨-, alive, empty, single⟩ := consumes.asks
            exact ⟨consumes.peer, alive, empty, fun few other member =>
              ⟨(single few other member).1, fun _ => (single few other member).2⟩⟩
    refine ⟨draining, fun few other member apart => ?_⟩
    rw [if_neg fun both => apart both.1]
    exact (draining.single few other member).2 apart
  · rw [if_neg here] at reads
    have draining := h.busy k from_ reads
    refine ⟨draining, fun few other member apart => ?_⟩
    have idle := (draining.single few other member).2 apart
    split
    · next both =>
      obtain ⟨rfl, rfl⟩ := both
      rcases idle_step idle consumes.reads consumes.stepped with after | ⟨call, rfl⟩
      · exact after
      · cases call with
        | pop => exact consumes.asks.elim
        | drain maxBatch =>
          obtain ⟨-, -, -, single⟩ := consumes.asks
          have quiet := (single few from_ draining.peer).2
          rw [reads] at quiet
          cases quiet
    · exact idle

/-- After a step of a reader, with the batches `recv` in the receivers' hands. -/
theorem MemoryInv.reread (h : MemoryInv r s) {j src : NodeId} {a : RingAction} {ring : SpscRing}
    (consumes : Consumes r s j src a ring) {recv : NodeId → NodeId → List BandleMessage}
    (gone : ∀ k from_, s.control.recvExited k from_ = true → recv k from_ = [])
    (spent : ∀ k from_,
      (if from_ = src ∧ k = j then ring else (s.side from_).ring k).consumer.isIdle = false →
      recv k from_ = [] ∧
        ((s.control.node k).cfg.pipelineWorkers ≤ 1 → ∀ p ∈ peersOf k, recv k p = []))
    (kept : ∀ k from_, recv k from_ <:+
      (if from_ = src ∧ k = j then ring else (s.side from_).ring k).hist.committed) :
    MemoryInv r { control := { s.control with recv := recv },
                  side := Function.update s.side src ((s.side src).setRing j ring) } := by
  have rings := ring_update s.side j src ring
  have pcs := pc_update s.side j src ring
  constructor
  · intro k
    by_cases from_ : k = src
    · subst k
      dsimp only
      rw [Function.update_self]
      refine (h.sides src).consume (p := j) (a := a) ?_
      rw [SendSide.consumeStep, if_pos consumes.reads, consumes.stepped]
      rfl
    · dsimp only
      rw [Function.update_of_ne from_]
      exact h.sides k
  · intro k
    simp only [(pcs k).2]
    exact h.flags k
  · exact h.stops
  · exact h.finished
  · exact h.empty
  · intro k
    simp only [(pcs k).1]
    exact h.client k
  · intro k
    simp only [(pcs k).1]
    exact h.proposer k
  · intro k from_ left
    obtain ⟨peer, stopped, -⟩ := h.exited k from_ left
    exact ⟨peer, stopped, gone k from_ left⟩
  · intro k from_ reads
    simp only [rings] at reads
    obtain ⟨before, others⟩ := h.busy_after consumes reads
    obtain ⟨own, all⟩ := spent k from_ reads
    refine ⟨before.peer, before.alive, own, fun few p member => ⟨all few p member, ?_⟩⟩
    simp only [rings]
    exact others few p member
  · intro k from_
    simp only [rings]
    split
    · next both =>
      obtain ⟨rfl, rfl⟩ := both
      refine (h.within k from_).step consumes.reads (fun call entered => ?_) consumes.stepped
      subst entered
      cases call with
      | pop => exact consumes.asks.elim
      | drain maxBatch => rw [consumes.asks.1]
    · exact h.within k from_
  · intro k from_
    simp only [rings]
    exact kept k from_

/-- What is in hand while a ring is read and the batches stay. -/
theorem MemoryInv.spent (h : MemoryInv r s) {j src : NodeId} {a : RingAction} {ring : SpscRing}
    (consumes : Consumes r s j src a ring) {k from_ : NodeId}
    (reads : (if from_ = src ∧ k = j then ring else
      (s.side from_).ring k).consumer.isIdle = false) :
    s.control.recv k from_ = [] ∧ ((s.control.node k).cfg.pipelineWorkers ≤ 1 →
      ∀ p ∈ peersOf k, s.control.recv k p = []) := by
  have before := (h.busy_after consumes reads).1
  exact ⟨before.idle, fun few p member => (before.single few p member).1⟩

/-- A reader that commits hands a batch over; any other step of it leaves the batches. -/
theorem MemoryInv.consume (h : MemoryInv r s) {j src : NodeId} {a : RingAction}
    (stepped : s.consumeStep r j src a = some t) : MemoryInv r t := by
  obtain ⟨ring, consumes, rfl⟩ := consumeStep_cases stepped
  rcases committed_step consumes.reads consumes.stepped with
    ⟨tail, read, rfl, here, idle, committed⟩ | ⟨other, committed⟩
  · have busyBefore : ((s.side src).ring j).consumer.isIdle = false := by
      rw [here]
      rfl
    have draining := h.busy j src busyBefore
    have received : s.received j src .storeTail =
        s.control.setRecv j src ((List.range read).map ((s.side src).ring j).out) := by
      rw [MemoryCluster.received, here]
    have elsewhere : ∀ k from_, ¬(k = j ∧ from_ = src) →
        Function.update s.control.recv j (Function.update (s.control.recv j) src
          ((List.range read).map ((s.side src).ring j).out)) k from_ =
            s.control.recv k from_ := by
      intro k from_ apart
      by_cases same : k = j
      · subst k
        rw [Function.update_self, Function.update_of_ne fun same => apart ⟨rfl, same⟩]
      · rw [Function.update_of_ne same]
    rw [received]
    refine h.reread consumes (fun k from_ left => ?_) (fun k from_ reads => ?_) fun k from_ => ?_
    · rw [elsewhere k from_]
      · exact (h.exited k from_ left).2.2
      · rintro ⟨rfl, rfl⟩
        rw [draining.alive] at left
        cases left
    · have apart : ¬(k = j ∧ from_ = src) := by
        rintro ⟨rfl, rfl⟩
        rw [if_pos ⟨rfl, rfl⟩, idle] at reads
        cases reads
      obtain ⟨own, all⟩ := h.spent consumes reads
      refine ⟨by rw [elsewhere k from_ apart]; exact own, fun few p member => ?_⟩
      rw [elsewhere k p]
      · exact all few p member
      · rintro ⟨rfl, rfl⟩
        have before := (h.busy_after consumes reads).1
        have quiet := (before.single few p member).2 fun same => apart ⟨rfl, same.symm⟩
        rw [busyBefore] at quiet
        cases quiet
    · by_cases same : k = j ∧ from_ = src
      · obtain ⟨rfl, rfl⟩ := same
        rw [if_pos ⟨rfl, rfl⟩, committed, Function.update_self, Function.update_self]
        exact List.suffix_append _ _
      · rw [elsewhere k from_ same, if_neg fun both => same ⟨both.2, both.1⟩]
        exact h.recv k from_
  · have received : s.received j src a = s.control := by
      unfold MemoryCluster.received
      split
      · exact absurd rfl other
      · rfl
    rw [received]
    refine h.reread consumes (fun k from_ left => (h.exited k from_ left).2.2)
      (fun k from_ reads => h.spent consumes reads) fun k from_ => ?_
    split
    · next both =>
      obtain ⟨rfl, rfl⟩ := both
      rw [committed]
      exact h.recv k from_
    · exact h.recv k from_

end BandleCxl.Invariant
