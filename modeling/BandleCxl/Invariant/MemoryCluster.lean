import BandleCxl.Invariant.MemoryThreads
import BandleCxl.Invariant.RingReader

/-!
The invariant of the replicas over shared memory: where a thread stands inside a call on the
rings agrees with where it stands outside, and a receive thread that is draining a ring has no
batch in hand.
-/
namespace BandleCxl.Invariant
open Library Source Bandle

/-- The receive thread that has `src` among its sources is in `drain_source_ring`. -/
structure Draining (s : MemoryCluster) (j src : NodeId) : Prop where
  peer : src ∈ peersOf j
  alive : s.control.recvExited j src = false
  idle : s.control.recv j src = []
  single : (s.control.node j).cfg.pipelineWorkers ≤ 1 → ∀ k ∈ peersOf j, s.control.recv j k = [] ∧
    (k ≠ src → ((s.side k).ring j).consumer.isIdle = true)

structure MemoryInv (r : RingShape) (s : MemoryCluster) : Prop where
  sides : ∀ i, SendInv r i (s.side i)
  flags : ∀ i, (s.side i).running = (s.control.node i).running
  stops : ∀ i, (s.control.node i).running = false ↔ Client.afterStop (s.control.client i) = true
  finished : ∀ i, Client.afterStop (s.control.client i) = true →
    ∀ k, s.control.nodeFinished k = true
  empty : ∀ i j, s.control.ring i j = []
  client : ∀ i, ClientSends ((s.side i).pc .client) (s.control.client i)
  proposer : ∀ i, ProposerSends ((s.side i).pc .proposer) (s.control.proposer i)
  exited : ∀ j src, s.control.recvExited j src = true →
    src ∈ peersOf j ∧ (s.control.node j).running = false ∧ s.control.recv j src = []
  busy : ∀ j src, ((s.side src).ring j).consumer.isIdle = false → Draining s j src
  within : ∀ j src, WithinBatch (recvBatchCapacity (s.control.node j).cfg.batchSize)
    ((s.side src).ring j).consumer
  recv : ∀ j src, s.control.recv j src <:+ ((s.side src).ring j).hist.committed

section
variable {hash : Bytes → Nat} {r : RingShape} {d : Deployment} {s t : MemoryCluster}

/-- What most steps outside the rings leave alone. -/
structure Quiet (c c' : Cluster) : Prop where
  running : ∀ i, (c'.node i).running = (c.node i).running
  cfg : ∀ i, (c'.node i).cfg = (c.node i).cfg
  after : ∀ i, Client.afterStop (c'.client i) = Client.afterStop (c.client i)
  finished : ∀ i, c.nodeFinished i = true → c'.nodeFinished i = true
  ring : c'.ring = c.ring
  recv : ∀ j src, c'.recv j src <:+ c.recv j src
  exited : c'.recvExited = c.recvExited

/-- The senders of every node have moved, and the readers have not. -/
structure Sent (r : RingShape) (side side' : NodeId → SendSide Sender) : Prop where
  sides : ∀ i, SendInv r i (side' i)
  running : ∀ i, (side' i).running = (side i).running
  readers : ∀ i p, SameReader ((side i).ring p) ((side' i).ring p)

theorem MemoryInv.still (h : MemoryInv r s) : Sent r s.side s.side :=
  ⟨h.sides, fun _ => rfl, fun _ _ => .refl _⟩

/-- The rings are read as before, and nobody starts again. -/
theorem MemoryInv.change (h : MemoryInv r s) {c : Cluster} {side : NodeId → SendSide Sender}
    (cfg : ∀ i, (c.node i).cfg = (s.control.node i).cfg) (ring : c.ring = s.control.ring)
    (recv : ∀ j src, c.recv j src <:+ s.control.recv j src)
    (exited : c.recvExited = s.control.recvExited)
    (off : ∀ i, (s.control.node i).running = false → (c.node i).running = false)
    (sides : ∀ i, SendInv r i (side i))
    (readers : ∀ i p, SameReader ((s.side i).ring p) ((side i).ring p))
    (flags : ∀ i, (side i).running = (c.node i).running)
    (stops : ∀ i, (c.node i).running = false ↔ Client.afterStop (c.client i) = true)
    (finished : ∀ i, Client.afterStop (c.client i) = true → ∀ k, c.nodeFinished k = true)
    (client : ∀ i, ClientSends ((side i).pc .client) (c.client i))
    (proposer : ∀ i, ProposerSends ((side i).pc .proposer) (c.proposer i)) :
    MemoryInv r { control := c, side := side } where
  sides := sides
  flags := flags
  stops := stops
  finished := finished
  empty i j := by
    dsimp only
    rw [ring]
    exact h.empty i j
  client := client
  proposer := proposer
  exited j src gone := by
    dsimp only at gone ⊢
    rw [exited] at gone
    obtain ⟨peer, stopped, none⟩ := h.exited j src gone
    refine ⟨peer, off j stopped, ?_⟩
    have suffix := recv j src
    rw [none] at suffix
    exact List.suffix_nil.mp suffix
  busy j src reads := by
    dsimp only at reads
    rw [(readers src j).consumer] at reads
    obtain ⟨peer, alive, idle, single⟩ := h.busy j src reads
    have empties : ∀ k, s.control.recv j k = [] → c.recv j k = [] := by
      intro k none
      have suffix := recv j k
      rw [none] at suffix
      exact List.suffix_nil.mp suffix
    refine ⟨peer, ?_, empties src idle, fun few k member => ?_⟩
    · dsimp only
      rw [exited]
      exact alive
    · dsimp only at few ⊢
      rw [cfg] at few
      obtain ⟨none, others⟩ := single few k member
      rw [(readers k j).consumer]
      exact ⟨empties k none, others⟩
  within j src := by
    dsimp only
    rw [cfg, (readers src j).consumer]
    exact h.within j src
  recv j src := by
    dsimp only
    rw [(readers src j).committed]
    exact (recv j src).trans (h.recv j src)

theorem MemoryInv.keep (h : MemoryInv r s) {c : Cluster} {side : NodeId → SendSide Sender}
    (quiet : Quiet s.control c) (sent : Sent r s.side side)
    (client : ∀ i, ClientSends ((side i).pc .client) (c.client i))
    (proposer : ∀ i, ProposerSends ((side i).pc .proposer) (c.proposer i)) :
    MemoryInv r { control := c, side := side } := by
  refine h.change quiet.cfg quiet.ring quiet.recv quiet.exited (fun i off => ?_) sent.sides
    sent.readers (fun i => ?_) (fun i => ?_) (fun i after k => ?_) client proposer
  · rw [quiet.running]
    exact off
  · rw [sent.running, h.flags, quiet.running]
  · rw [quiet.running, quiet.after]
    exact h.stops i
  · rw [quiet.after] at after
    exact quiet.finished k (h.finished i after k)

/-! ### Threads outside the rings -/

/-- One node moves, with its client. -/
theorem Quiet.setNodeClient (c : Cluster) {i : NodeId} {n : Bandle} {pc : ClientPc}
    (running : n.running = (c.node i).running) (cfg : n.cfg = (c.node i).cfg)
    (after : Client.afterStop pc = Client.afterStop (c.client i)) :
    Quiet c ((c.setNode i n).setClient i pc) where
  running k := by
    by_cases here : k = i
    · subst k
      simpa only [Cluster.setNode, Cluster.setClient, Function.update_self] using running
    · simp only [Cluster.setNode, Cluster.setClient, Function.update_of_ne here]
  cfg k := by
    by_cases here : k = i
    · subst k
      simpa only [Cluster.setNode, Cluster.setClient, Function.update_self] using cfg
    · simp only [Cluster.setNode, Cluster.setClient, Function.update_of_ne here]
  after k := by
    by_cases here : k = i
    · subst k
      simpa only [Cluster.setNode, Cluster.setClient, Function.update_self] using after
    · simp only [Cluster.setNode, Cluster.setClient, Function.update_of_ne here]
  finished _ done := done
  ring := rfl
  recv _ _ := List.suffix_refl _
  exited := rfl

/-- One node moves, with its proposer. -/
theorem Quiet.setNodeProposer (c : Cluster) {i : NodeId} {n : Bandle} {pc : ProposerPc}
    (running : n.running = (c.node i).running) (cfg : n.cfg = (c.node i).cfg) :
    Quiet c ((c.setNode i n).setProposer i pc) := by
  have moved : Quiet c ((c.setNode i n).setClient i (c.client i)) :=
    .setNodeClient c running cfg rfl
  simp only [Cluster.setNode, Cluster.setClient, Function.update_eq_self] at moved
  exact ⟨moved.running, moved.cfg, moved.after, moved.finished, moved.ring, moved.recv,
    moved.exited⟩

theorem Quiet.setClient (c : Cluster) {i : NodeId} {pc : ClientPc}
    (after : Client.afterStop pc = Client.afterStop (c.client i)) : Quiet c (c.setClient i pc) := by
  have moved : Quiet c ((c.setNode i (c.node i)).setClient i pc) := .setNodeClient c rfl rfl after
  simpa only [Cluster.setNode, Function.update_eq_self] using moved

theorem Quiet.setProposer (c : Cluster) (i : NodeId) (pc : ProposerPc) :
    Quiet c (c.setProposer i pc) := by
  have moved : Quiet c ((c.setNode i (c.node i)).setProposer i pc) := .setNodeProposer c rfl rfl
  simpa only [Cluster.setNode, Function.update_eq_self] using moved

theorem sendsBatch_nextChunk (cap : Nat) (rest : List BandleMessage) :
    sendsBatch (nextChunk cap rest) = false := by
  unfold nextChunk
  split <;> rfl

theorem afterStop_nextChunk (cap : Nat) (rest : List BandleMessage) :
    Client.afterStop (nextChunk cap rest) = false := by
  unfold nextChunk
  split <;> rfl

/-- The client of one node moves outside `broadcast_batch`. -/
theorem MemoryInv.clients (h : MemoryInv r s) {i : NodeId} {pc : ClientPc}
    (before : sendsBatch (s.control.client i) = false) (after : sendsBatch pc = false) :
    ∀ k, ClientSends ((s.side k).pc .client) (Function.update s.control.client i pc k) :=
  (Function.forall_update_iff _ fun k c => ClientSends ((s.side k).pc .client) c).mpr
    ⟨(h.client i).other before after, fun k _ => h.client k⟩

theorem MemoryInv.proposers (h : MemoryInv r s) {i : NodeId} {pc : ProposerPc}
    (before : sendsNoop (s.control.proposer i) = false) (after : sendsNoop pc = false) :
    ∀ k, ProposerSends ((s.side k).pc .proposer) (Function.update s.control.proposer i pc k) :=
  (Function.forall_update_iff _ fun k p => ProposerSends ((s.side k).pc .proposer) p).mpr
    ⟨(h.proposer i).other before after, fun k _ => h.proposer k⟩

theorem foldl_proposals (hash : Bytes → Nat) (n : Bandle) (msgs : List BandleMessage)
    (tsc : Nat → Nat) :
    ProposingSame n ((msgs.foldl (fun n p => n.handleProposalLocked hash tsc p false)
      n).advanceExecuteLocked hash tsc) := by
  rw [foldl_handleProposal]
  exact (ProposingSame.recordAll n msgs).trans (.advance _)

/-- A step of a thread that is in no call on the rings. -/
theorem MemoryInv.plain (h : MemoryInv r s) {a : Action} {c : Cluster}
    (fires : Fires hash s.control a c) (simple : plain a = true) :
    MemoryInv r { s with control := c } := by
  cases fires with
  | admission | ready | abandon | publish | published | stop | drain | recvExit | noopNumber
  | noopSend | noopSent | noopDrop => cases simple
  | @submit i bufs batch later pc todo =>
    have quiet : Quiet s.control ((s.control.setNode i
        (buildProposals bufs batch (s.control.node i, [])).1).setClient i (nextChunk
          (admissionBatchCapacity (buildProposals bufs batch (s.control.node i, [])).2.length
            (s.control.node i).cfg.admissionBatch)
          (buildProposals bufs batch (s.control.node i, [])).2)) := by
      refine .setNodeClient _ ?_ ?_ ?_
      · rw [buildProposals_eq]
      · rw [buildProposals_eq]
      · rw [afterStop_nextChunk, pc]
        rfl
    exact h.keep ⟨quiet.running, quiet.cfg, quiet.after, quiet.finished, quiet.ring, quiet.recv,
      quiet.exited⟩ h.still (h.clients (by rw [pc]; rfl) (sendsBatch_nextChunk _ _)) h.proposer
  | @selfDeliver i tsc cap chunk rest pc =>
    have same := foldl_proposals hash (s.control.node i) chunk tsc
    refine h.keep (.setNodeClient _ same.running same.cfg ?_) h.still
      (h.clients (by rw [pc]; rfl) (sendsBatch_nextChunk _ _)) h.proposer
    rw [afterStop_nextChunk, pc]
    rfl
  | @markInputDone i pc todo =>
    exact h.keep (.setNodeClient _ rfl rfl (by rw [pc]; rfl)) h.still
      (h.clients (by rw [pc]; rfl) rfl) h.proposer
  | @pendingDone i pc done =>
    have quiet : Quiet s.control (s.control.setClient i .barrier) := .setClient _ (by rw [pc]; rfl)
    refine h.keep ⟨quiet.running, quiet.cfg, quiet.after, fun k done => ?_, quiet.ring, quiet.recv,
      quiet.exited⟩ h.still (h.clients (by rw [pc]; rfl) rfl) h.proposer
    dsimp only
    by_cases here : k = i
    · rw [here, Function.update_self]
    · rw [Function.update_of_ne here]
      exact done
  | @join i pc exited receivers =>
    exact h.keep (.setClient _ (by rw [pc]; rfl)) h.still (h.clients (by rw [pc]; rfl) rfl)
      h.proposer
  | @handle j src tsc batch =>
    have same : ProposingSame (s.control.node j) ((s.control.node j).handleChunk hash tsc
      ((s.control.recv j src).take kHandleChunk)) := .chunk _ _
    have moved : Quiet s.control ((s.control.setNode j ((s.control.node j).handleChunk hash tsc
        ((s.control.recv j src).take kHandleChunk))).setProposer j (s.control.proposer j)) :=
      .setNodeProposer _ same.running same.cfg
    simp only [Cluster.setNode, Cluster.setProposer, Function.update_eq_self] at moved
    refine h.keep ⟨moved.running, moved.cfg, moved.after, moved.finished, moved.ring, ?_,
      moved.exited⟩ h.still h.client h.proposer
    intro k from_
    simp only [Cluster.setRecv]
    by_cases here : k = j
    · subst k
      rw [Function.update_self]
      by_cases there : from_ = src
      · rw [there, Function.update_self]
        exact List.drop_suffix _ _
      · rw [Function.update_of_ne there]
        exact List.suffix_refl _
    · rw [Function.update_of_ne here]
      exact List.suffix_refl _
  | @noopCheck i now pc running due =>
    exact h.keep (.setProposer _ i _) h.still h.client (h.proposers (by rw [pc]; rfl) rfl)
  | @noopRead i pc =>
    exact h.keep (.setProposer _ i _) h.still h.client (h.proposers (by rw [pc]; rfl) rfl)
  | @noopDeliver i tsc p pc =>
    have same : ProposingSame (s.control.node i)
        ((s.control.node i).handleProposalLocked hash tsc p true) := .proposal _ p true
    exact h.keep (.setNodeProposer _ same.running same.cfg) h.still h.client
      (h.proposers (by rw [pc]; rfl) rfl)
  | @proposerExit i pc stopped =>
    exact h.keep (.setProposer _ i _) h.still h.client (h.proposers (by rw [pc]; rfl) rfl)

/-- Calls on the rings are entered from outside, and only with messages. -/
theorem callStep_cases {side side' : SendSide Sender} {u : Sender} {call : SendCall}
    (stepped : side.callStep u call = some side') (some : call.msgs ≠ []) :
    side' = { side.setPc u (.entered call) with
      calls := Function.update side.calls u (side.calls u ++ [call.msgs]) } := by
  unfold SendSide.callStep at stepped
  split at stepped
  · split at stepped
    · next none => exact absurd (List.length_eq_zero_iff.mp none) some
    · exact (Option.some.inj stepped).symm
  · cases stepped

/-- The senders of node `i` move. -/
theorem MemoryInv.sent (h : MemoryInv r s) {i : NodeId} {side : SendSide Sender}
    (inv : SendInv r i side) (running : side.running = (s.side i).running)
    (readers : ∀ p, SameReader ((s.side i).ring p) (side.ring p)) :
    Sent r s.side (Function.update s.side i side) where
  sides := (Function.forall_update_iff _ fun k side => SendInv r k side).mpr
    ⟨inv, fun k _ => h.sides k⟩
  running := (Function.forall_update_iff _ fun k (side : SendSide Sender) =>
    side.running = (s.side k).running).mpr
    ⟨running, fun _ _ => rfl⟩
  readers := (Function.forall_update_iff _ fun k (side : SendSide Sender) =>
    ∀ p, SameReader ((s.side k).ring p) (side.ring p)).mpr ⟨readers, fun _ _ _ => .refl _⟩

theorem MemoryInv.admission (h : MemoryInv r s) {i : NodeId} {tsc : Nat → Nat} {c : Cluster}
    {side : SendSide Sender} {cap : Nat} {batch : MessageArray} {rest : List BandleMessage}
    (fires : Fires hash s.control (.admission i tsc) c)
    (pc : c.client i = .broadcast cap batch.msgs rest)
    (called : (s.side i).callStep .client (.broadcastBatch batch) = some side)
    (some : batch.msgs ≠ []) (fits : Fits batch.msgs = true) :
    MemoryInv r (MemoryCluster.setSide { s with control := c } i side) := by
  have inv := (h.sides i).call called
  have entered := callStep_cases called some
  subst entered
  cases fires with
  | @admission _ _ _ chunk _ before admits =>
    have numbers : Numbers (s.control.node i) (numberChunk tsc (s.control.node i) chunk).1
      (numberChunk tsc (s.control.node i) chunk).2 := .chunk _ _
    refine h.keep (.setNodeClient _ numbers.running numbers.cfg (by rw [before]; rfl))
      (h.sent inv rfl fun _ => .refl _) (fun k => ?_) fun k => ?_
    · by_cases here : k = i
      · subst k
        rw [pc, Function.update_self]
        simp only [SendSide.setPc, Function.update_self]
        exact ⟨⟨cap, rest, rfl⟩, fits⟩
      · rw [Function.update_of_ne here]
        simp only [Cluster.setClient, Cluster.setNode]
        rw [Function.update_of_ne here]
        exact h.client k
    · by_cases here : k = i
      · subst k
        rw [Function.update_self]
        simp only [SendSide.setPc]
        rw [Function.update_of_ne (by decide)]
        exact h.proposer i
      · rw [Function.update_of_ne here]
        exact h.proposer k

theorem MemoryInv.noopNumber (h : MemoryInv r s) {i : NodeId} {now : Nat} {c : Cluster}
    {side : SendSide Sender} {p : BandleMessage} {peers : List NodeId}
    (fires : Fires hash s.control (.noopNumber i now) c) (pc : c.proposer i = .send p peers)
    (called : (s.side i).callStep .proposer (.broadcast p) = some side) :
    MemoryInv r (MemoryCluster.setSide { s with control := c } i side) := by
  have inv := (h.sides i).call called
  have entered := callStep_cases called (List.cons_ne_nil p [])
  subst entered
  cases fires with
  | @noopNumber _ _ q before =>
    refine h.keep (.setNodeProposer _ rfl rfl) (h.sent inv rfl fun _ => .refl _) (fun k => ?_)
      fun k => ?_
    · by_cases here : k = i
      · subst k
        rw [Function.update_self]
        simp only [SendSide.setPc]
        rw [Function.update_of_ne (by decide)]
        exact h.client i
      · rw [Function.update_of_ne here]
        exact h.client k
    · by_cases here : k = i
      · subst k
        rw [pc, Function.update_self]
        simp only [SendSide.setPc, Function.update_self]
        exact ⟨peers, rfl⟩
      · rw [Function.update_of_ne here]
        simp only [Cluster.setProposer, Cluster.setNode]
        rw [Function.update_of_ne here]
        exact h.proposer k

theorem MemoryInv.stop (h : MemoryInv r s) {i : NodeId} {c : Cluster}
    (fires : Fires hash s.control (.stop i) c) :
    MemoryInv r (MemoryCluster.clearRunning { s with control := c } i) := by
  cases fires with
  | stop pc all =>
    have finished : ∀ k, s.control.nodeFinished k = true := by
      intro k
      have member : k ∈ [0, 1, 2] := by fin_cases k <;> decide
      exact List.all_eq_true.mp all k member
    have cfg : ∀ k, (Function.update s.control.node i
        { s.control.node i with running := false } k).cfg = (s.control.node k).cfg := by
      intro k
      by_cases here : k = i
      · rw [here, Function.update_self]
      · rw [Function.update_of_ne here]
    have off : ∀ k, (s.control.node k).running = false → (Function.update s.control.node i
        { s.control.node i with running := false } k).running = false := by
      intro k stopped
      by_cases here : k = i
      · rw [here, Function.update_self]
      · rw [Function.update_of_ne here]
        exact stopped
    have sides : ∀ k, SendInv r k (Function.update s.side i
        { s.side i with running := false } k) := by
      intro k
      by_cases here : k = i
      · subst k
        rw [Function.update_self]
        exact (h.sides i).stop
      · rw [Function.update_of_ne here]
        exact h.sides k
    have readers : ∀ k p, SameReader ((s.side k).ring p) ((Function.update s.side i
        { s.side i with running := false } k).ring p) := by
      intro k p
      by_cases here : k = i
      · subst k
        rw [Function.update_self]
        exact .refl _
      · rw [Function.update_of_ne here]
        exact .refl _
    refine h.change cfg rfl (fun _ _ => List.suffix_refl _) rfl off sides readers (fun k => ?_)
      (fun k => ?_) (fun _ _ => finished) ?_ ?_
    · simp only [Cluster.setClient, Cluster.setNode]
      by_cases here : k = i
      · rw [here, Function.update_self, Function.update_self]
      · rw [Function.update_of_ne here, Function.update_of_ne here]
        exact h.flags k
    · simp only [Cluster.setClient, Cluster.setNode]
      by_cases here : k = i
      · rw [here, Function.update_self, Function.update_self]
        exact iff_of_true rfl rfl
      · rw [Function.update_of_ne here, Function.update_of_ne here]
        exact h.stops k
    · have clients : ∀ k, ClientSends ((s.side k).pc .client)
          (Function.update s.control.client i .joining k) := h.clients (by rw [pc]; rfl) rfl
      intro k
      have same : (Function.update s.side i { s.side i with running := false } k).pc .client =
          (s.side k).pc .client := by
        by_cases here : k = i
        · rw [here, Function.update_self]
        · rw [Function.update_of_ne here]
      dsimp only
      rw [same]
      exact clients k
    · intro k
      have same : (Function.update s.side i { s.side i with running := false } k).pc .proposer =
          (s.side k).pc .proposer := by
        by_cases here : k = i
        · rw [here, Function.update_self]
        · rw [Function.update_of_ne here]
      dsimp only
      rw [same]
      exact h.proposer k

theorem MemoryInv.recvExit (h : MemoryInv r s) {j src : NodeId} {c : Cluster}
    (fires : Fires hash s.control (.recvExit j src) c)
    (idle : ((s.side src).ring j).consumer.isIdle = true) :
    MemoryInv r { s with control := c } := by
  cases fires with
  | recvExit peer stopped none =>
    have elsewhere : ∀ k from_, ¬(k = j ∧ from_ = src) →
        Function.update s.control.recvExited j (Function.update (s.control.recvExited j) src true)
          k from_ = s.control.recvExited k from_ := by
      intro k from_ other
      by_cases here : k = j
      · subst k
        rw [Function.update_self, Function.update_of_ne fun same => other ⟨rfl, same⟩]
      · rw [Function.update_of_ne here]
    refine { h with exited := fun k from_ gone => ?_, busy := fun k from_ reads => ?_ }
    · by_cases here : k = j ∧ from_ = src
      · rw [here.1, here.2]
        exact ⟨peer, stopped, none⟩
      · dsimp only at gone
        rw [elsewhere k from_ here] at gone
        exact h.exited k from_ gone
    · have other : ¬(k = j ∧ from_ = src) := by
        rintro ⟨rfl, rfl⟩
        rw [idle] at reads
        cases reads
      obtain ⟨peer, alive, none, single⟩ := h.busy k from_ reads
      refine ⟨peer, ?_, none, single⟩
      dsimp only
      rw [elsewhere k from_ other]
      exact alive

theorem MemoryInv.initial (start : (memorySystem hash d r).init s) : MemoryInv r s := by
  obtain ⟨control, sides⟩ := start
  have quiet : ∀ i, (s.side i).running = true ∧ (∀ u, (s.side i).pc u = .outside) ∧
      ∀ p, ((s.side i).ring p).consumer = .idle := by
    intro i
    obtain ⟨running, outside, started⟩ := send_start (sides i)
    refine ⟨running, outside, fun p => ?_⟩
    obtain ⟨descs, out, first⟩ := started p
    rw [first]
    rfl
  constructor
  · exact fun i => .init (sides i)
  · intro i
    rw [(quiet i).1, control]
    rfl
  · intro i
    rw [control]
    exact iff_of_false Bool.noConfusion Bool.noConfusion
  · intro i after
    rw [control] at after
    cases after
  · intro i j
    rw [control]
    rfl
  · intro i
    rw [(quiet i).2.1, control]
    rfl
  · intro i
    rw [(quiet i).2.1, control]
    rfl
  · intro j src gone
    rw [control] at gone
    cases gone
  · intro j src reads
    rw [(quiet src).2.2] at reads
    cases reads
  · intro j src
    rw [(quiet src).2.2]
    trivial
  · intro j src
    rw [control]
    exact List.nil_suffix

end

end BandleCxl.Invariant
