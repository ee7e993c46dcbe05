import BandleCxl.Invariant.MemoryView

/-!
Each step of a sender is matched by steps of the system with queues: the answer that there is
room on both rings, each store of a head, and each message that is pushed or given up.
-/
namespace BandleCxl.Invariant
open Library Source Bandle

variable {hash : Bytes → Nat} {d : Deployment} {r : RingShape} {m : MemoryCluster} {c c' : Cluster}
  {i : NodeId} {side : SendSide Sender}

/-! ### Rings as queues -/

theorem MemoryInv.ringInv (h : MemoryInv r m) (coherent : r.coherent = true) (i p : NodeId) :
    RingInv r ((m.side i).ring p) :=
  ring_reachable (((h.sides i).rings p).under fun _ _ _ _ _ => Or.inl coherent)

theorem unread_sent {ring ring' : SpscRing} {msgs : List BandleMessage} (inv : RingInv r ring)
    (reader : SameReader ring ring')
    (published : ring'.hist.published = ring.hist.published ++ msgs) :
    unread ring' = unread ring ++ msgs :=
  unread_grown inv published reader.committed

/-- A producer that writes has found room. -/
theorem room_of_fills {ring : SpscRing} {msgs : List BandleMessage} (inv : RingInv r ring)
    (fills : Fills msgs ring.producer ∨ Roomy msgs ring.producer) :
    (unread ring).length + msgs.length ≤ r.capacity := by
  have seen := inv.seenTail_le
  have occupied := inv.occupancy
  have writing : ∃ h, Writing r ring.hist.published.length
      (ring.hist.tailCount ring.producerSaw) h msgs := by
    have producer := inv.producer
    rcases fills with (⟨h, k, place, -⟩ | ⟨h, k, place, -⟩) | ⟨h, place⟩ <;> rw [place] at producer
    · exact ⟨h, producer.1⟩
    · exact ⟨h, producer.1⟩
    · exact ⟨h, producer.1⟩
  obtain ⟨h, writing⟩ := writing
  have room := writing.room
  rw [unread_length]
  omega

theorem Placed.room {ring : NodeId → SpscRing} {msgs : List BandleMessage}
    (placed : Placed (peersOf i) (peersOf i) (Filled msgs) (Fills msgs) (Roomy msgs) ring) :
    ∀ p ∈ peersOf i, Fills msgs (ring p).producer ∨ Roomy msgs (ring p).producer := by
  intro p member
  cases peers : peersOf i with
  | nil => exact absurd peers (peersOf_ne_nil i)
  | cons q rest =>
    rw [peers] at placed member
    rcases List.mem_cons.mp member with rfl | later
    · exact Or.inl placed.first
    · exact Or.inr (placed.coming p later)

/-! ### What a sender shows -/

/-- Node `i` shows another client and other rings. -/
theorem Related.showClient (h : Related r m c) (inv : MemoryInv r (m.setSide i side))
    (moved : Moved i (m.side i) .client side) (pc : ClientPc) (rings : NodeId → List BandleMessage)
    (view : pc = clientView (late (m.side i)) i (side.pc .client) (m.control.client i))
    (ring : ∀ j, rings j = unread (side.ring j)) :
    Related r (m.setSide i side) { c with
      client := Function.update c.client i pc, ring := Function.update c.ring i rings } := by
  have proposer := moved.others .proposer (by decide)
  have tardy : late side = late (m.side i) := by rw [late, late, moved.running, proposer]
  have going : on side = on (m.side i) := by rw [on, on, moved.running, proposer]
  refine h.atNode (i := i) inv ⟨?_, ?_, ?_, ?_, ?_⟩ (fun k other => ?_)
    ⟨⟨rfl, rfl⟩, ⟨rfl, rfl⟩, h.finished, h.input⟩ ?_
  · simp only [MemoryCluster.setSide, Function.update_self, going]
    exact (h.beside i).node
  · simp only [MemoryCluster.setSide, Function.update_self, tardy]
    exact view
  · simp only [MemoryCluster.setSide, Function.update_self, proposer]
    exact (h.beside i).proposer
  · simp only [MemoryCluster.setSide, Function.update_self, tardy]
    exact (h.beside i).joining
  · simp only [MemoryCluster.setSide, Function.update_self]
    exact ring
  · constructor <;> simp only [MemoryCluster.setSide, Function.update_of_ne other, and_self]
  · simp only [MemoryCluster.setSide, Function.update_self, tardy]

/-- Node `i` shows another proposer and other rings. -/
theorem Related.showProposer (h : Related r m c) (inv : MemoryInv r (m.setSide i side))
    (moved : Moved i (m.side i) .proposer side) (pc : ProposerPc)
    (rings : NodeId → List BandleMessage)
    (tardy : late side = late (m.side i)) (going : on side = on (m.side i))
    (view : pc = proposerView i (side.pc .proposer) (m.control.proposer i))
    (ring : ∀ j, rings j = unread (side.ring j)) :
    Related r (m.setSide i side) { c with
      proposer := Function.update c.proposer i pc, ring := Function.update c.ring i rings } := by
  have client := moved.others .client (by decide)
  refine h.atNode (i := i) inv ⟨?_, ?_, ?_, ?_, ?_⟩ (fun k other => ?_)
    ⟨⟨rfl, rfl⟩, ⟨rfl, rfl⟩, h.finished, h.input⟩ ?_
  · simp only [MemoryCluster.setSide, Function.update_self, going]
    exact (h.beside i).node
  · simp only [MemoryCluster.setSide, Function.update_self, tardy, client]
    exact (h.beside i).client
  · simp only [MemoryCluster.setSide, Function.update_self]
    exact view
  · simp only [MemoryCluster.setSide, Function.update_self, tardy]
    exact (h.beside i).joining
  · simp only [MemoryCluster.setSide, Function.update_self]
    exact ring
  · constructor <;> simp only [MemoryCluster.setSide, Function.update_of_ne other, and_self]
  · simp only [MemoryCluster.setSide, Function.update_self, tardy]

/-- What the rings hold after a step. -/
theorem Related.sentRings (h : Related r m c) (coherent : r.coherent = true) {u : Sender}
    (moved : Moved i (m.side i) u side) :
    ∃ sent, SendMove (peersOf i) (m.side i).running ((m.side i).pc u) (side.pc u) sent ∧
      ∀ j, unread (side.ring j) = c.ring i j ++ sentTo j sent := by
  obtain ⟨sent, move, published⟩ := moved.move
  refine ⟨sent, move, fun j => ?_⟩
  rw [(h.beside i).ring, unread_sent (h.inv.ringInv coherent i j) (moved.readers j) (published j)]

/-- The rings after `p` was sent `msgs`. -/
theorem update_sent (rings : NodeId → List BandleMessage) (p : NodeId)
    (msgs : List BandleMessage) (j : NodeId) :
    Function.update rings p (rings p ++ msgs) j = rings j ++ sentTo j (some (p, msgs)) := by
  by_cases here : j = p
  · rw [here, Function.update_self, (sentTo_self p msgs).1]
  · rw [Function.update_of_ne here, (sentTo_self p msgs).2 j here, List.append_nil]

/-! ### The client -/

/-- The client shows where it is in `broadcast_batch`. -/
theorem Related.clientAt (h : Related r m c) {cap : Nat} {chunk rest : List BandleMessage}
    (calling : m.control.client i = .broadcast cap chunk rest) :
    late (m.side i) = false ∧ (m.control.node i).running = true ∧ on (m.side i) = true ∧
      c.client i = clientView false i ((m.side i).pc .client) (.broadcast cap chunk rest) := by
  have punctual : late (m.side i) = false := by
    refine Bool.eq_false_iff.mpr fun tardy => ?_
    have joining := (h.beside i).joining tardy
    rw [calling] at joining
    cases joining
  have runs : (m.control.node i).running = true := by
    rw [← Bool.not_eq_false, h.inv.stops, calling]
    exact Bool.noConfusion
  refine ⟨punctual, runs, ?_, ?_⟩
  · rw [on, h.inv.flags, runs]
    rfl
  · rw [(h.beside i).client, punctual, calling]

/-- One step of the client in `broadcast_batch`. -/
theorem Related.clientSends (h : Related r m c) (coherent : r.coherent = true)
    (full : r.capacity = kBandleRingCapacity) (inv : MemoryInv r (m.setSide i side))
    (moved : Moved i (m.side i) .client side) :
    ∃ schedule c', (clusterSystem hash d).run c schedule = some c' ∧
      Related r (m.setSide i side) c' := by
  obtain ⟨sent, move, rings⟩ := h.sentRings coherent moved
  have before := h.inv.client i
  have sends := inv.sides i
  simp only [MemoryCluster.setSide, Function.update_self] at sends
  -- A step that shows nothing, at the same place of the call as before.
  have silent : ∀ {cap chunk rest}, m.control.client i = .broadcast cap chunk rest → sent = none →
      clientView false i (side.pc .client) (.broadcast cap chunk rest) =
        clientView false i ((m.side i).pc .client) (.broadcast cap chunk rest) →
      ∃ schedule c', (clusterSystem hash d).run c schedule = some c' ∧
        Related r (m.setSide i side) c' := by
    intro cap chunk rest calling none same
    obtain ⟨punctual, -, -, shown⟩ := h.clientAt calling
    have related := h.showClient inv moved (c.client i) (c.ring i)
      (by rw [punctual, calling, shown, same])
      (fun j => by rw [rings j, none]; exact (List.append_nil _).symm)
    rw [Function.update_eq_self, Function.update_eq_self] at related
    exact ⟨[], c, rfl, related⟩
  generalize old : (m.side i).pc .client = place at move before
  generalize new : side.pc .client = place' at move
  cases move with
  | lockMsg | pushes | skips | pushed | goesOn | noRoom | sends => exact before.elim
  | lockBatch | runs | asks | full =>
    obtain ⟨⟨cap, rest, calling⟩, -⟩ := before
    exact silent calling rfl (by rw [old, new]; rfl)
  | writes =>
    obtain ⟨⟨cap, rest, calling⟩, -⟩ := before
    exact silent calling rfl (by rw [old, new]; rfl)
  | filled =>
    obtain ⟨⟨cap, rest, calling⟩, -⟩ := before
    exact silent calling rfl (by rw [old, new]; rfl)
  | halts off =>
    obtain ⟨⟨cap, rest, calling⟩, -⟩ := before
    obtain ⟨-, runs, -⟩ := h.clientAt calling
    rw [h.inv.flags, runs] at off
    cases off
  | refused long => exact absurd before.2 long
  | @roomy batch todo =>
    obtain ⟨⟨cap, rest, calling⟩, -⟩ := before
    obtain ⟨punctual, -, going, shown⟩ := h.clientAt calling
    rw [old] at shown
    have places := (sends.holder new trivial).places
    have room : ∀ p ∈ peersOf i, (c.ring i p).length + batch.msgs.length ≤ kBandleRingCapacity := by
      intro p member
      have holds := rings p
      rw [sentTo, List.append_nil] at holds
      have ringInv := ring_reachable ((sends.rings p).under fun _ _ _ _ _ => Or.inl coherent)
      rw [← holds, ← full]
      exact room_of_fills ringInv (Placed.room places p member)
    have related := h.showClient inv moved (.publish cap batch.msgs rest (peersOf i))
      (c.ring i) (by rw [punctual, calling, new]; rfl)
      (fun j => by rw [rings j]; exact (List.append_nil _).symm)
    rw [Function.update_eq_self] at related
    refine ⟨[.ready i], _, ?_, related⟩
    have ready : c.readyStep i =
        some (c.setClient i (.publish cap batch.msgs rest (peersOf i))) := by
      simp only [Cluster.readyStep, shown, clientView, Bool.false_eq_true, if_false]
      exact if_pos ⟨by rw [h.running, going], room⟩
    simp only [TransitionSystem.run, clusterSystem, Cluster.step, ready]
    rfl
  | @publishes batch p q todo =>
    obtain ⟨⟨cap, rest, calling⟩, -⟩ := before
    obtain ⟨punctual, -, going, shown⟩ := h.clientAt calling
    rw [old] at shown
    have related := h.showClient inv moved (.publish cap batch.msgs rest (q :: todo))
      (Function.update (c.ring i) p (c.ring i p ++ batch.msgs))
      (by rw [punctual, calling, new]; rfl)
      (fun j => by rw [rings j]; exact update_sent _ p _ j)
    refine ⟨[.publish i], _, ?_, related⟩
    simp only [TransitionSystem.run, clusterSystem, Cluster.step, Cluster.publishStep, shown,
      clientView]
    rfl
  | @published batch p =>
    obtain ⟨⟨cap, rest, calling⟩, -⟩ := before
    obtain ⟨punctual, -, going, shown⟩ := h.clientAt calling
    rw [old] at shown
    have related := h.showClient inv moved (.deliver cap batch.msgs rest)
      (Function.update (c.ring i) p (c.ring i p ++ batch.msgs))
      (by rw [punctual, calling, new]; rfl)
      (fun j => by rw [rings j]; exact update_sent _ p _ j)
    refine ⟨[.publish i, .publish i], _, ?_, related⟩
    simp only [TransitionSystem.run, clusterSystem, Cluster.step, Cluster.publishStep, shown,
      clientView, Option.bind_some, Cluster.setClient, Function.update_self]
    rw [Function.update_idem]
    rfl

/-! ### The proposer -/

/-- Threads that see the flag cleared leave one after another. -/
theorem run_exits (c : Cluster) (i : NodeId) (sources : List NodeId)
    (halted : (c.node i).running = false)
    (spent : ∀ src ∈ sources, src ∈ peersOf i ∧ c.recv i src = []) :
    (clusterSystem hash d).run c (sources.map (.recvExit i)) = some { c with
      recvExited := fun j src => if j = i ∧ src ∈ sources then true else c.recvExited j src } := by
  induction sources generalizing c with
  | nil => simp [TransitionSystem.run]
  | cons src rest ih =>
    obtain ⟨member, idle⟩ := spent src (List.mem_cons_self ..)
    have leaves : c.step hash (.recvExit i src) = some { c with
        recvExited := Function.update c.recvExited i
          (Function.update (c.recvExited i) src true) } := if_pos ⟨member, halted, idle⟩
    simp only [List.map_cons, TransitionSystem.run]
    change (c.step hash (.recvExit i src)).bind _ = _
    rw [leaves, Option.bind_some]
    refine (ih { c with recvExited := (Function.update c.recvExited i
      (Function.update (c.recvExited i) src true)) } halted
      fun k later => spent k (List.mem_cons_of_mem _ later)).trans ?_
    congr 2
    funext j k
    by_cases here : j = i
    · subst here
      by_cases there : k = src
      · simp [there]
      · simp [there]
    · simp [here]

/-- When a late push has ended, the node stops and its receive threads that have left leave. -/
theorem Related.catchUp (h : Related r m c) (hash : Bytes → Nat) (d : Deployment)
    (inv : MemoryInv r (m.setSide i side))
    (moved : Moved i (m.side i) .proposer side) (tardy : late (m.side i) = true)
    (ended : pushing (side.pc .proposer) = false) (pc : ProposerPc)
    (rings : NodeId → List BandleMessage)
    (view : pc = proposerView i (side.pc .proposer) (m.control.proposer i))
    (ring : ∀ j, rings j = unread (side.ring j)) :
    ∃ schedule c', (clusterSystem hash d).run { c with
        proposer := Function.update c.proposer i pc, ring := Function.update c.ring i rings }
        schedule = some c' ∧
      Related r (m.setSide i side) c' := by
  have joining := (h.beside i).joining tardy
  have stopped : (m.control.node i).running = false := by
    rw [h.inv.stops, joining]
    rfl
  have outside := (h.inv.client i).outside (by rw [joining]; rfl)
  have barrier : c.client i = .barrier := by
    rw [(h.beside i).client, outside, tardy]
    rfl
  have all : c.allNodesFinished = true := by
    rw [h.allFinished]
    exact List.all_eq_true.mpr fun k _ => h.inv.finished i (by rw [joining]; rfl) k
  have client := moved.others .client (by decide)
  have off : side.running = false := by rw [moved.running, h.inv.flags, stopped]
  have punctual : late side = false := by rw [late, off, ended]; rfl
  have halted : on side = false := by rw [on, off, ended]; rfl
  obtain ⟨handled, node⟩ := (h.beside i).node
  let shown : Cluster := { c with
    proposer := Function.update c.proposer i pc, ring := Function.update c.ring i rings }
  let halts := (shown.setNode i { c.node i with running := false }).setClient i .joining
  have stops : shown.step hash (.stop i) = some halts := by
    have finished : shown.allNodesFinished = true := all
    have waits : shown.client i = .barrier := barrier
    simp only [Cluster.step, Cluster.stopStep, waits, finished, if_true]
    rfl
  have quiet : (halts.node i).running = false := by
    simp only [halts, Cluster.setNode, Cluster.setClient, Function.update_self]
  have spent : ∀ src ∈ (peersOf i).filter (m.control.recvExited i ·),
      src ∈ peersOf i ∧ halts.recv i src = [] := by
    intro src member
    obtain ⟨peer, gone⟩ := List.mem_filter.mp member
    have empty := (h.inv.exited i src gone).2.2
    have same := h.recv i src
    rw [empty] at same
    exact ⟨peer, List.forall₂_nil_right_iff.mp same⟩
  refine ⟨.stop i :: ((peersOf i).filter (m.control.recvExited i ·)).map (.recvExit i),
    { halts with recvExited := fun j src =>
        if j = i ∧ src ∈ (peersOf i).filter (m.control.recvExited i ·) then true
        else halts.recvExited j src }, ?_, ?_⟩
  · simp only [TransitionSystem.run]
    change (shown.step hash (.stop i)).bind _ = _
    rw [stops, Option.bind_some]
    exact run_exits halts i _ quiet spent
  · constructor
    · exact inv
    · intro k
      by_cases here : k = i
      · subst here
        refine ⟨⟨handled, ?_⟩, ?_, ?_, ?_, ?_⟩
        · simp only [halts, shown, MemoryCluster.setSide, Cluster.setNode, Cluster.setClient,
            Function.update_self, halted, node]
          rfl
        · simp only [halts, shown, MemoryCluster.setSide, Cluster.setNode, Cluster.setClient,
            Function.update_self, punctual, client, outside, joining]
          rfl
        · simp only [halts, shown, MemoryCluster.setSide, Cluster.setNode, Cluster.setClient,
            Function.update_self]
          exact view
        · intro _
          exact joining
        · simp only [halts, shown, MemoryCluster.setSide, Cluster.setNode, Cluster.setClient,
            Function.update_self]
          exact ring
      · refine (h.beside k).untouched ?_
        constructor <;> simp only [halts, shown, MemoryCluster.setSide, Cluster.setNode,
          Cluster.setClient, Function.update_of_ne here, and_self]
    · exact h.recv
    · intro j src
      have before := h.exited j src
      by_cases here : j = i
      · subst here
        simp only [MemoryCluster.setSide, Function.update_self, punctual]
        rw [tardy] at before
        by_cases gone : m.control.recvExited j src = true
        · have member := (h.inv.exited j src gone).1
          simp [member, gone]
        · simp [halts, shown, Cluster.setNode, Cluster.setClient, before, gone]
      · simp only [MemoryCluster.setSide, Function.update_of_ne here]
        simp [halts, shown, Cluster.setNode, Cluster.setClient, before, here]
    · exact h.finished
    · exact h.input

/-- Whether a node is late depends only on its flag and its proposer. -/
theorem Moved.standing (moved : Moved i (m.side i) .proposer side)
    (same : (m.side i).running = true ∨
      pushing (side.pc .proposer) = pushing ((m.side i).pc .proposer)) :
    late side = late (m.side i) ∧ on side = on (m.side i) := by
  rw [late, late, on, on, moved.running]
  rcases same with runs | same
  · rw [runs]
    exact ⟨rfl, rfl⟩
  · rw [same]
    exact ⟨rfl, rfl⟩

/-- A message is pushed in the system with queues. -/
theorem Related.noopSend (h : Related r m c) (hash : Bytes → Nat) {msg : BandleMessage} {p : NodeId}
    {todo : List NodeId} (sending : c.proposer i = .send msg (p :: todo))
    (going : on (m.side i) = true) (room : (c.ring i p).length < kBandleRingCapacity) :
    c.step hash (.noopSend i) = some { c with
      proposer := Function.update c.proposer i (.send msg todo)
      ring := Function.update c.ring i (Function.update (c.ring i) p (c.ring i p ++ [msg])) } := by
  simp only [Cluster.step, Cluster.noopSendStep, sending]
  exact if_pos ⟨by rw [h.running, going], room⟩

/-- One step of the proposer in `broadcast`. -/
theorem Related.proposerSends (h : Related r m c) (coherent : r.coherent = true)
    (full : r.capacity = kBandleRingCapacity) (inv : MemoryInv r (m.setSide i side))
    (moved : Moved i (m.side i) .proposer side) :
    ∃ schedule c', (clusterSystem hash d).run c schedule = some c' ∧
      Related r (m.setSide i side) c' := by
  obtain ⟨sent, move, rings⟩ := h.sentRings coherent moved
  have before := h.inv.proposer i
  have shown := (h.beside i).proposer
  have sends := inv.sides i
  simp only [MemoryCluster.setSide, Function.update_self] at sends
  have silent : sent = none →
      proposerView i (side.pc .proposer) (m.control.proposer i) =
        proposerView i ((m.side i).pc .proposer) (m.control.proposer i) →
      late side = late (m.side i) ∧ on side = on (m.side i) →
      ∃ schedule c', (clusterSystem hash d).run c schedule = some c' ∧
        Related r (m.setSide i side) c' := by
    intro none same standing
    have related := h.showProposer inv moved (c.proposer i) (c.ring i) standing.1
      standing.2 (by rw [shown, same])
      (fun j => by rw [rings j, none]; exact (List.append_nil _).symm)
    rw [Function.update_eq_self, Function.update_eq_self] at related
    exact ⟨[], c, rfl, related⟩
  generalize old : (m.side i).pc .proposer = place at move before shown
  generalize new : side.pc .proposer = place' at move
  have standing := moved.standing
  rw [old, new] at standing
  rw [old, new] at silent
  cases move with
  | lockBatch | runs | halts | asks | full | roomy | writes | refused | filled | publishes
  | published => exact before.elim
  | lockMsg => exact silent rfl rfl (standing (Or.inr rfl))
  | pushes running => exact silent rfl rfl (standing (Or.inl running))
  | goesOn => exact silent rfl rfl (standing (Or.inr rfl))
  | @skips msg p todo off =>
    obtain ⟨tardy, going⟩ := standing (Or.inr rfl)
    have halted : on (m.side i) = false := by rw [on, off, old]; rfl
    have related := h.showProposer inv moved (.send msg todo) (c.ring i) tardy going
      (by rw [new]; rfl) (fun j => by rw [rings j]; exact (List.append_nil _).symm)
    rw [Function.update_eq_self] at related
    refine ⟨[.noopDrop i], _, ?_, related⟩
    have sending : c.proposer i = .send msg (p :: todo) := shown
    have dropped : c.step hash (.noopDrop i) = some (c.setProposer i (.send msg todo)) := by
      simp only [Cluster.step, Cluster.noopDropStep, sending, h.running, halted]
      rfl
    simp only [TransitionSystem.run, clusterSystem, dropped]
    rfl
  | @pushed msg =>
    obtain ⟨tardy, going⟩ := standing (Or.inr rfl)
    obtain ⟨peers, calling⟩ := before
    have related := h.showProposer inv moved (.deliver msg) (c.ring i) tardy going
      (by rw [new, calling]; rfl) (fun j => by rw [rings j]; exact (List.append_nil _).symm)
    rw [Function.update_eq_self] at related
    refine ⟨[.noopSend i], _, ?_, related⟩
    have sending : c.proposer i = .send msg [] := shown
    have delivered : c.step hash (.noopSend i) = some (c.setProposer i (.deliver msg)) := by
      simp only [Cluster.step, Cluster.noopSendStep, sending]
    simp only [TransitionSystem.run, clusterSystem, delivered]
    rfl
  | @noRoom msg todo =>
    cases runs : (m.side i).running with
    | true => exact silent rfl rfl (standing (Or.inl runs))
    | false =>
      have tardy : late (m.side i) = true := by rw [late, runs, old]; rfl
      obtain ⟨schedule, c', ran, related⟩ := h.catchUp hash d inv moved tardy
        (by rw [new]; rfl) (c.proposer i) (c.ring i) (by rw [new]; exact shown)
        (fun j => by rw [rings j]; exact (List.append_nil _).symm)
      rw [Function.update_eq_self, Function.update_eq_self] at ran
      exact ⟨schedule, c', ran, related⟩
  | @sends msg p todo =>
    have going : on (m.side i) = true := by rw [on, old]; simp [pushing]
    have room : (c.ring i p).length < kBandleRingCapacity := by
      have ringInv := ring_reachable ((sends.rings p).under fun _ _ _ _ _ => Or.inl coherent)
      have occupied := ringInv.occupancy
      have holds := congrArg List.length (rings p)
      rw [unread_length, List.length_append, (sentTo_self p [msg]).1] at holds
      rw [← full]
      simp only [List.length_singleton] at holds
      omega
    have pushed := h.noopSend hash shown going room
    cases runs : (m.side i).running with
    | true =>
      obtain ⟨tardy, same⟩ := standing (Or.inl runs)
      have related := h.showProposer inv moved (.send msg todo)
        (Function.update (c.ring i) p (c.ring i p ++ [msg])) tardy same
        (by rw [new]; rfl) (fun j => by rw [rings j]; exact update_sent _ p _ j)
      refine ⟨[.noopSend i], _, ?_, related⟩
      simp only [TransitionSystem.run, clusterSystem, pushed]
      rfl
    | false =>
      have tardy : late (m.side i) = true := by rw [late, runs, old]; rfl
      obtain ⟨schedule, c', ran, related⟩ := h.catchUp hash d inv moved tardy
        (by rw [new]; rfl) (.send msg todo) (Function.update (c.ring i) p (c.ring i p ++ [msg]))
        (by rw [new]; rfl)
        (fun j => by rw [rings j]; exact update_sent _ p _ j)
      refine ⟨.noopSend i :: schedule, c', ?_, related⟩
      simp only [TransitionSystem.run]
      change (c.step hash (.noopSend i)).bind _ = _
      rw [pushed, Option.bind_some]
      exact ran

end BandleCxl.Invariant
