import BandleCxl.Invariant.Node
import BandleCxl.Invariant.Steps

/-!
Where the threads of a node can be. Client submission and no-ops exclude each
other through `input_done_`; a number is only taken while the node's lead over
its own `execute_next_` is within the bound that its settings give.
-/
namespace BandleCxl.Invariant
open Library Source Bandle

/-- The largest window a chunk of this node can be tested against. -/
def effectiveWindow (cfg : Settings) : Nat := max cfg.admissionWindow (3 * cfg.admissionBatch + 3)

/-- The bound on a node's lead: its effective window, or the no-op limit of 512
rounds plus the one no-op already granted. -/
def leadBound (cfg : Settings) : Nat := max (effectiveWindow cfg) 1539

theorem leadBound_le {cfg : Settings} {bound : Nat} (window : effectiveWindow cfg ≤ bound)
    (noops : 1539 ≤ bound) : leadBound cfg ≤ bound := Nat.max_le.mpr ⟨window, noops⟩

namespace Client

/-- In `main`'s replay loop or in a call it makes. -/
def submitting : ClientPc → Bool
  | .replay | .admission .. | .broadcast .. | .publish .. | .deliver .. => true
  | _ => false

def afterStop : ClientPc → Bool
  | .joining | .stopped => true
  | _ => false

/-- Proposals of the current call that have no number yet. -/
def unnumbered : ClientPc → List BandleMessage
  | .admission _ chunk rest => chunk ++ rest
  | .broadcast _ _ rest | .publish _ _ rest _ | .deliver _ _ rest => rest
  | _ => []

/-- The chunk that the next admission critical section numbers. -/
def admitting : ClientPc → List BandleMessage
  | .admission _ chunk _ => chunk
  | _ => []

/-- Shape of the chunk loop's locals. -/
def Shaped (cfg : Settings) (i : NodeId) : ClientPc → Prop
  | .admission cap chunk _ => 1 ≤ cap ∧ cap ≤ cfg.admissionBatch ∧ chunk ≠ [] ∧ chunk.length ≤ cap
  | .broadcast cap _ _ | .deliver cap _ _ => 1 ≤ cap ∧ cap ≤ cfg.admissionBatch
  | .publish cap _ _ peers => 1 ≤ cap ∧ cap ≤ cfg.admissionBatch ∧ peers.Nodup ∧ i ∉ peers
  | _ => True

end Client

namespace Proposer

/-- Inside `propose_noop`. -/
def active : ProposerPc → Bool
  | .loop | .exited => false
  | _ => true

/-- A no-op is granted and has no number yet. -/
def owed : ProposerPc → Bool
  | .granted | .read _ => true
  | _ => false

def Shaped (i : NodeId) (n : Bandle) : ProposerPc → Prop
  | .read p => p = n.noopProposal
  | .send _ peers => peers.Nodup ∧ i ∉ peers
  | _ => True

end Proposer

structure NodeControl (cfg : Settings) (i : NodeId) (n : Bandle) (c : ClientPc) (p : ProposerPc) :
    Prop where
  settings : n.cfg = cfg
  phase : n.inputDone = !Client.submitting c
  noops : Proposer.active p = true → n.inputDone = true
  stopped : n.running = false → Client.afterStop c = true
  lead : n.nextSeq < n.executeNext + leadBound cfg + 3
  highest : n.nextSeq ≤ n.highestProposedSeq + 3
  proposed : n.highestProposedSeq < n.nextSeq
  owed : Proposer.owed p = true → n.nextSeq < n.executeNext + 1539
  built : ∀ m ∈ Client.unnumbered c, WellFormed (number i) m
  client : Client.Shaped cfg i c
  proposer : Proposer.Shaped i n p

structure ControlInv (d : Deployment) (s : Cluster) : Prop where
  node : ∀ i, NodeControl (d.settings i) i (s.node i) (s.client i) (s.proposer i)
  loopback : ∀ i, s.ring i i = [] ∧ s.recv i i = []

theorem peersOf_nodup (i : NodeId) : (peersOf i).Nodup := by
  revert i
  decide

theorem mem_peersOf {i j : NodeId} : j ∈ peersOf i ↔ j ≠ i := by
  revert i j
  decide

variable {hash : Bytes → Nat} {d : Deployment}

/-- The no-op in preparation depends on the node only through its number. -/
theorem Proposer.Shaped.congr {i : NodeId} {n n' : Bandle} {p : ProposerPc}
    (shaped : Proposer.Shaped i n p) (cfg : n'.cfg = n.cfg) (next : n'.nextSeq = n.nextSeq) :
    Proposer.Shaped i n' p := by
  cases p with
  | read m =>
    simp only [Proposer.Shaped, noopProposal, next, cfg] at shaped ⊢
    exact shaped
  | send m peers => exact shaped
  | loop => trivial
  | granted => trivial
  | deliver m => trivial
  | exited => trivial

/-- Delivery at a node keeps its control state: only `execute_next_` moves, forward. -/
theorem NodeControl.delivered {cfg : Settings} {i : NodeId} {n n' : Bandle} {c : ClientPc}
    {p : ProposerPc} (h : NodeControl cfg i n c p) (same : ProposingSame n n') :
    NodeControl cfg i n' c p where
  settings := same.cfg.trans h.settings
  phase := same.inputDone.trans h.phase
  noops active := same.inputDone.trans (h.noops active)
  stopped off := h.stopped (same.running.symm.trans off)
  lead := by
    have := h.lead
    have := same.next_le
    rw [same.nextSeq]
    omega
  highest := by
    rw [same.nextSeq, same.highest]
    exact h.highest
  proposed := by
    rw [same.nextSeq, same.highest]
    exact h.proposed
  owed o := by
    have := h.owed o
    have := same.next_le
    rw [same.nextSeq]
    omega
  built := h.built
  client := h.client
  proposer := h.proposer.congr same.cfg same.nextSeq

/-- Leaving or continuing the chunk loop. -/
theorem NodeControl.nextChunk {cfg : Settings} {i : NodeId} {n : Bandle} {c : ClientPc}
    {p : ProposerPc} (h : NodeControl cfg i n c p) (submitting : Client.submitting c = true)
    {cap : Nat} {rest : List BandleMessage} (pos : 1 ≤ cap) (le : cap ≤ cfg.admissionBatch)
    (wf : ∀ m ∈ rest, WellFormed (number i) m) :
    NodeControl cfg i n (Source.nextChunk cap rest) p := by
  have phase := h.phase
  rw [submitting] at phase
  unfold Source.nextChunk
  split
  · exact { h with
      phase := phase
      stopped := fun off => by
        have late := h.stopped off
        cases c <;> simp_all [Client.submitting, Client.afterStop]
      built := by simp [Client.unnumbered]
      client := trivial }
  · next nonempty =>
    have some : rest ≠ [] := by simpa using nonempty
    exact { h with
      phase := phase
      stopped := fun off => by
        have late := h.stopped off
        cases c <;> simp_all [Client.submitting, Client.afterStop]
      built := by
        intro m member
        simp only [Client.unnumbered, List.take_append_drop] at member
        exact wf m member
      client := by
        refine ⟨pos, le, ?_, List.length_take_le _ _⟩
        intro empty
        have := congrArg List.length empty
        have := List.length_pos_iff.mpr some
        simp only [List.length_take, List.length_nil] at *
        omega }

/-- An admitted chunk stays within the lead bound. -/
theorem lead_of_admits {cfg : Settings} {n : Bandle} {count : Nat} (same : n.cfg = cfg)
    (pos : 1 ≤ count) (le : count ≤ cfg.admissionBatch) (fits : n.Admits count) :
    n.nextSeq + 3 * count < n.executeNext + leadBound cfg + 3 := by
  have small : count % 2 ^ 32 = count := Nat.mod_eq_of_lt (Nat.lt_of_le_of_lt le cfg.batch_lt)
  unfold Admits chunkWindow maxInflightSeqWindow at fits
  rw [small, same, cfg.three] at fits
  unfold leadBound effectiveWindow
  omega

/-- Numbering keeps the control facts that do not mention program points. -/
theorem NodeControl.numbered {cfg : Settings} {i : NodeId} {n n' : Bandle} {c c' : ClientPc}
    {p p' : ProposerPc} {msgs : List BandleMessage} (h : NodeControl cfg i n c p)
    (numbers : Numbers n n' msgs)
    (lead : n.nextSeq + 3 * msgs.length < n.executeNext + leadBound cfg + 3)
    (phase : Client.submitting c' = Client.submitting c)
    (noops : Proposer.active p' = true → Proposer.active p = true)
    (stopped : Client.afterStop c' = Client.afterStop c)
    (owed : Proposer.owed p' = false)
    (built : ∀ m ∈ Client.unnumbered c', m ∈ Client.unnumbered c)
    (client : Client.Shaped cfg i c') (proposer : Proposer.Shaped i n' p') :
    NodeControl cfg i n' c' p' where
  settings := numbers.cfg.trans h.settings
  phase := by rw [numbers.inputDone, phase]; exact h.phase
  noops active := by rw [numbers.inputDone]; exact h.noops (noops active)
  stopped off := by
    rw [numbers.running] at off
    rw [stopped]
    exact h.stopped off
  lead := by rw [numbers.nextSeq, numbers.next]; exact lead
  highest := numbers.highest h.highest
  proposed := numbers.proposed h.proposed
  owed o := by rw [owed] at o; cases o
  built m member := h.built m (built m member)
  client := client
  proposer := proposer

/-- Only node `i` moved. -/
theorem ControlInv.setNodeClient {s : Cluster} (h : ControlInv d s) {i : NodeId} {n : Bandle}
    {pc : ClientPc} (moved : NodeControl (d.settings i) i n pc (s.proposer i)) :
    ControlInv d ((s.setNode i n).setClient i pc) := by
  refine ⟨fun k => ?_, h.loopback⟩
  by_cases here : k = i
  · subst k
    simpa only [Cluster.setNode, Cluster.setClient, Function.update_self] using moved
  · simpa only [Cluster.setNode, Cluster.setClient, Function.update_of_ne here] using h.node k

theorem ControlInv.setClient {s : Cluster} (h : ControlInv d s) {i : NodeId} {c : ClientPc}
    (moved : NodeControl (d.settings i) i (s.node i) c (s.proposer i)) :
    ControlInv d (s.setClient i c) := by
  have both := h.setNodeClient moved
  simpa only [Cluster.setNode, Function.update_eq_self] using both

theorem ControlInv.setNodeProposer {s : Cluster} (h : ControlInv d s) {i : NodeId} {n : Bandle}
    {pc : ProposerPc} (moved : NodeControl (d.settings i) i n (s.client i) pc) :
    ControlInv d ((s.setNode i n).setProposer i pc) := by
  refine ⟨fun k => ?_, h.loopback⟩
  by_cases here : k = i
  · subst k
    simpa only [Cluster.setNode, Cluster.setProposer, Function.update_self] using moved
  · simpa only [Cluster.setNode, Cluster.setProposer, Function.update_of_ne here] using h.node k

theorem ControlInv.setProposer {s : Cluster} (h : ControlInv d s) {i : NodeId} {pc : ProposerPc}
    (moved : NodeControl (d.settings i) i (s.node i) (s.client i) pc) :
    ControlInv d (s.setProposer i pc) := by
  have both := h.setNodeProposer moved
  simpa only [Cluster.setNode, Function.update_eq_self] using both

theorem ControlInv.setRing {s : Cluster} (h : ControlInv d s) {i j : NodeId}
    (msgs : List BandleMessage) (apart : j ≠ i) : ControlInv d (s.setRing i j msgs) := by
  refine ⟨h.node, fun k => ⟨?_, (h.loopback k).2⟩⟩
  by_cases here : k = i
  · subst k
    simp [Cluster.setRing, Function.update_of_ne apart.symm, (h.loopback i).1]
  · simp [Cluster.setRing, Function.update_of_ne here, (h.loopback k).1]

theorem ControlInv.setRecv {s : Cluster} (h : ControlInv d s) {i j : NodeId}
    (msgs : List BandleMessage) (apart : i ≠ j) : ControlInv d (s.setRecv j i msgs) := by
  refine ⟨h.node, fun k => ⟨(h.loopback k).1, ?_⟩⟩
  by_cases here : k = j
  · subst k
    simp [Cluster.setRecv, Function.update_of_ne apart.symm, (h.loopback j).2]
  · simp [Cluster.setRecv, Function.update_of_ne here, (h.loopback k).2]

theorem ControlInv.initial (d : Deployment) : ControlInv d (Cluster.initial d) where
  node i :=
    { settings := rfl
      phase := rfl
      noops := fun active => by simp [Cluster.initial, Proposer.active] at active
      stopped := fun off => by simp [Cluster.initial, Bandle.started] at off
      lead := by
        have := (d.settings i).node_le
        have := (d.settings i).three
        simp only [Cluster.initial, Bandle.started, leadBound]
        omega
      highest := by
        have := (d.settings i).node_le
        have := (d.settings i).three
        simp only [Cluster.initial, Bandle.started]
        omega
      proposed := (d.settings i).node_pos
      owed := fun o => by simp [Cluster.initial, Proposer.owed] at o
      built := by simp [Cluster.initial, Client.unnumbered]
      client := trivial
      proposer := trivial }
  loopback _ := ⟨rfl, rfl⟩

/-- A client that still submits has its proposer thread in the polling loop. -/
theorem NodeControl.proposer_idle {cfg : Settings} {i : NodeId} {n : Bandle} {c : ClientPc}
    {p : ProposerPc} (h : NodeControl cfg i n c p) (submitting : Client.submitting c = true) :
    Proposer.active p = false := by
  have phase := h.phase
  rw [submitting] at phase
  by_contra active
  have := h.noops (by simpa using active)
  rw [phase] at this
  cases this

/-- Numbering a chunk: the window test bounds the new lead. -/
theorem NodeControl.admitted {cfg : Settings} {i : NodeId} {n : Bandle} {p : ProposerPc}
    {cap : Nat} {chunk rest : List BandleMessage} (tsc : Nat → Nat)
    (h : NodeControl cfg i n (.admission cap chunk rest) p) (fits : n.Admits chunk.length) :
    NodeControl cfg i (numberChunk tsc n chunk).1
      (.broadcast cap (numberChunk tsc n chunk).2 rest) p := by
  obtain ⟨pos, le, some, short⟩ := h.client
  have idle := h.proposer_idle rfl
  refine h.numbered (Numbers.chunk n chunk) ?_ rfl (fun active => active) rfl ?_ ?_ ⟨pos, le⟩ ?_
  · rw [numberChunk_length]
    exact lead_of_admits h.settings (List.length_pos_iff.mpr some) (Nat.le_trans short le) fits
  · cases p <;> simp_all [Proposer.active, Proposer.owed]
  · intro m member
    exact List.mem_append_right _ member
  · cases p <;> simp_all [Proposer.active, Proposer.Shaped]

/-- A grant: the limit is tested on the highest number proposed so far. -/
theorem NodeControl.granted {cfg : Settings} {i : NodeId} {n : Bandle} {c : ClientPc}
    {p : ProposerPc} {finished : Bool} {now : Nat} (h : NodeControl cfg i n c p)
    (due : n.shouldProposeNoopLocked finished now = true) : NodeControl cfg i n c .granted := by
  unfold shouldProposeNoopLocked at due
  split at due
  · cases due
  · next input =>
    split at due
    · cases due
    · have limit := of_decide_eq_true due
      have near := h.highest
      rw [n.cfg.three] at limit
      exact { h with
        noops := fun _ => by
          simp only [Bool.or_eq_true, Bool.not_eq_eq_eq_not, Bool.not_true, not_or,
            Bool.not_eq_false] at input
          exact input.1
        owed := fun _ => by omega
        proposer := trivial }

/-- Numbering a no-op uses the grant. -/
theorem NodeControl.noopNumbered {cfg : Settings} {i : NodeId} {n : Bandle} {c : ClientPc}
    {m : BandleMessage} (now : Nat) (h : NodeControl cfg i n c (.read m)) :
    NodeControl cfg i (n.numberNoop now m) c (.send m (peersOf i)) := by
  have filled : m = n.noopProposal := h.proposer
  rw [filled]
  refine h.numbered (Numbers.noop n now) ?_ rfl (fun _ => rfl) rfl rfl (fun m member => member)
    h.client ⟨peersOf_nodup i, by simp [mem_peersOf]⟩
  have := h.owed rfl
  have : 1539 ≤ leadBound cfg := Nat.le_max_right _ _
  simp only [List.length_cons, List.length_nil]
  omega

/-- The first part of `submit_borrowed_batch`. -/
theorem NodeControl.submitted {i : NodeId} {n : Bandle} {p : ProposerPc} (bufs : Nat → Mem)
    (batch : List BorrowedRequest) (h : NodeControl (d.settings i) i n .replay p) :
    NodeControl (d.settings i) i (buildProposals bufs batch (n, [])).1
      (Source.nextChunk (admissionBatchCapacity (buildProposals bufs batch (n, [])).2.length
        n.cfg.admissionBatch) (buildProposals bufs batch (n, [])).2) p := by
  have id : n.cfg.nodeId = number i := by rw [h.settings, d.ids i]
  have batchPos := (d.settings i).batch_pos
  rw [buildProposals_eq]
  have counted : NodeControl (d.settings i) i { n with acct := { n.acct with
      errorOps := n.acct.errorOps + invalidCount batch
      totalOps := n.acct.totalOps + invalidCount batch } } .replay p :=
    { h with proposer := h.proposer.congr rfl rfl }
  refine counted.nextChunk rfl ?_ ?_ ?_
  · simp [admissionBatchCapacity]
  · rw [h.settings]
    simp only [admissionBatchCapacity]
    omega
  · simp only [List.nil_append, id]
    exact WellFormed.proposalsOf _ _ _ _

/-- Every firing keeps the control invariant: one node's program points move, the
other nodes are as before. -/
theorem ControlInv.step {s t : Cluster} {a : Action} (h : ControlInv d s)
    (fires : Fires hash s a t) : ControlInv d t := by
  cases fires with
  | @submit i bufs batch later pc todo =>
    have old := h.node i
    rw [pc] at old
    have moved := h.setNodeClient (old.submitted bufs batch)
    exact ⟨moved.node, moved.loopback⟩
  | @admission i tsc cap chunk rest pc fits =>
    have old := h.node i
    rw [pc] at old
    exact h.setNodeClient (old.admitted tsc fits)
  | @ready i cap chunk rest pc running room =>
    have old := h.node i
    rw [pc] at old
    exact h.setClient { old with
      stopped := old.stopped
      client := ⟨old.client.1, old.client.2, peersOf_nodup i, by simp [mem_peersOf]⟩ }
  | @abandon i cap chunk rest pc stopped =>
    have old := h.node i
    rw [pc] at old
    exact h.setClient { old with
      stopped := old.stopped
      client := old.client }
  | @publish i cap chunk rest peer peers pc =>
    have old := h.node i
    rw [pc] at old
    obtain ⟨pos, le, nodup, self⟩ := old.client
    have apart : peer ≠ i := by
      intro same
      exact self (by simp [same])
    exact (h.setRing _ apart).setClient { old with
      stopped := old.stopped
      client := ⟨pos, le, (List.nodup_cons.mp nodup).2, fun member => self (by simp [member])⟩ }
  | @published i cap chunk rest pc =>
    have old := h.node i
    rw [pc] at old
    exact h.setClient { old with
      stopped := old.stopped
      client := ⟨old.client.1, old.client.2.1⟩ }
  | @selfDeliver i tsc cap chunk rest pc =>
    have old := h.node i
    rw [pc] at old
    rw [foldl_handleProposal]
    have same : ProposingSame (s.node i)
        ((recordAll (s.node i) chunk).advanceExecuteLocked hash tsc) :=
      (ProposingSame.recordAll _ _).trans (.advance _)
    exact h.setNodeClient ((old.delivered same).nextChunk rfl old.client.1 old.client.2 old.built)
  | @markInputDone i pc todo =>
    have old := h.node i
    rw [pc] at old
    exact h.setNodeClient { old with
      phase := rfl
      noops := fun _ => rfl
      stopped := fun off => by cases old.stopped off
      client := trivial
      proposer := old.proposer.congr rfl rfl }
  | @pendingDone i pc done =>
    have old := h.node i
    rw [pc] at old
    have moved := h.setClient (c := .barrier) { old with
      stopped := fun off => by cases old.stopped off
      client := trivial }
    exact ⟨moved.node, moved.loopback⟩
  | @stop i pc finished =>
    have old := h.node i
    rw [pc] at old
    exact h.setNodeClient { old with
      stopped := fun _ => rfl
      client := trivial
      proposer := old.proposer.congr rfl rfl }
  | @join i pc exited receivers =>
    have old := h.node i
    rw [pc] at old
    exact h.setClient { old with
      stopped := fun _ => rfl
      client := trivial }
  | @drain j src avail peer alive idle single some published =>
    have apart : src ≠ j := mem_peersOf.mp peer
    exact (h.setRecv _ apart).setRing _ apart.symm
  | @handle j src tsc batch =>
    have apart : src ≠ j := by
      intro same
      subst src
      exact batch (h.loopback j).2
    have same : ProposingSame (s.node j)
        ((s.node j).handleChunk hash tsc ((s.recv j src).take kHandleChunk)) := .chunk _ _
    have moved := h.setNodeClient ((h.node j).delivered same)
    simp only [Cluster.setClient, Cluster.setNode, Function.update_eq_self] at moved
    exact moved.setRecv _ apart
  | @recvExit j src peer stopped idle => exact ⟨h.node, h.loopback⟩
  | @noopCheck i now pc running due => exact h.setProposer ((h.node i).granted due)
  | @noopRead i pc =>
    have old := h.node i
    rw [pc] at old
    exact h.setProposer { old with
      noops := fun _ => old.noops rfl
      owed := fun _ => old.owed rfl
      proposer := rfl }
  | @noopNumber i now p pc =>
    have old := h.node i
    rw [pc] at old
    exact h.setNodeProposer (old.noopNumbered now)
  | @noopSend i p peer peers pc running room =>
    have old := h.node i
    rw [pc] at old
    obtain ⟨nodup, self⟩ := old.proposer
    have apart : peer ≠ i := by
      intro same
      exact self (by simp [same])
    exact (h.setRing _ apart).setProposer { old with
      noops := fun _ => old.noops rfl
      owed := fun none => by cases none
      proposer := ⟨(List.nodup_cons.mp nodup).2, fun member => self (by simp [member])⟩ }
  | @noopSent i p pc =>
    have old := h.node i
    rw [pc] at old
    exact h.setProposer { old with
      noops := fun _ => old.noops rfl
      owed := fun none => by cases none
      proposer := trivial }
  | @noopDrop i p peer peers pc stopped =>
    have old := h.node i
    rw [pc] at old
    obtain ⟨nodup, self⟩ := old.proposer
    exact h.setProposer { old with
      noops := fun _ => old.noops rfl
      owed := fun none => by cases none
      proposer := ⟨(List.nodup_cons.mp nodup).2, fun member => self (by simp [member])⟩ }
  | @noopDeliver i tsc p pc =>
    have same : ProposingSame (s.node i) ((s.node i).handleProposalLocked hash tsc p true) :=
      .proposal _ _ _
    have old := (h.node i).delivered same
    exact h.setNodeProposer { old with
      noops := fun active => by cases active
      owed := fun none => by cases none
      proposer := trivial }
  | @proposerExit i pc stopped =>
    exact h.setProposer { h.node i with
      noops := fun active => by cases active
      owed := fun none => by cases none
      proposer := trivial }

theorem control_reachable {s : Cluster} (reached : (clusterSystem hash d).Reachable s) :
    ControlInv d s :=
  cluster_invariant (.initial d) (fun _ _ _ _ holds fires => holds.step fires) reached

end BandleCxl.Invariant
