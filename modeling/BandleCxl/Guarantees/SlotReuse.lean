import BandleCxl.Invariant.AdmissionWords
import BandleCxl.Invariant.Lap
import BandleCxl.Invariant.Submission

/-!
Reuse of log and `pending_` slots. Both arrays have `kCompletionSlots` entries and are
indexed by the low bits of a number. Nothing in the handler or in admission looks at
what a slot holds, and the constructor puts no upper bound on the window or the batch.
What live entries depend on is a condition on the steps of a run, and a run that breaks
it loses an entry. Small settings meet it in every run.
-/
namespace BandleCxl.Guarantees
open Library Source Bandle Invariant

/-- No live log entry was reset and no open `pending_` slot was overwritten. -/
def SlotsIntact (n : Bandle) : Prop := n.hist.resetLive = [] ∧ n.acct.overwritten = []

/-- An admission finds a slot for each of its requests beside the open ones, and what a
node handles is numbered less than a lap ahead of its `execute_next_`. -/
structure WithinLap (s : Cluster) (a : Action) : Prop where
  room : AdmissionRoom s a
  near : HandedNear s a

variable {hash : Bytes → Nat} {d : Deployment} {s t u : Cluster}

theorem intact_of_under (reached : (clusterSystem hash d).ReachableUnder WithinLap s) (i : NodeId) :
    SlotsIntact (s.node i) := by
  obtain ⟨batches, clients, noops, done, h⟩ := submission_under (fun _ _ within => within.room) reached i
  exact ⟨(lap_under (fun _ _ within => within.near) reached i).1, h.ledger.clean⟩

/-! ### What a step outside the condition costs -/

/-- Histories only grow, so what is intact now was intact before. -/
theorem intact_before {a : Action} (reached : (clusterSystem hash d).Reachable s)
    (stepped : (clusterSystem hash d).step s a = some t) {i : NodeId}
    (intact : SlotsIntact (t.node i)) : SlotsIntact (s.node i) := by
  have flow := flow_reachable reached
  have fires := fires_of_step stepped
  have resets := resetLive_mono flow (control_reachable reached) fires i
  have taken := fires.overwritten_mono flow i
  rw [intact.1, List.prefix_nil] at resets
  rw [intact.2, List.prefix_nil] at taken
  exact ⟨resets, taken⟩

theorem intact_start (schedule : List Action) (reached : (clusterSystem hash d).Reachable s)
    (ran : (clusterSystem hash d).run s schedule = some u) {i : NodeId}
    (intact : SlotsIntact (u.node i)) : SlotsIntact (s.node i) := by
  induction schedule generalizing s with
  | nil =>
    obtain rfl := Option.some.inj ran
    exact intact
  | cons a rest ih =>
    obtain ⟨t, stepped, later⟩ := Option.bind_eq_some_iff.mp ran
    exact intact_before reached stepped (ih (.next a reached stepped) later)

/-- Every handled proposal has come within a lap of `execute_next_`; in particular when all
of them are executed. -/
def CaughtUp (s : Cluster) : Prop := ∀ j, ∀ m ∈ (s.node j).hist.handled, Near (s.node j) m

/-- From a run that met the condition so far: if it goes on to a state in which nothing is
lost and the nodes have caught up, its next step met the condition too. -/
theorem within_of_intact {a : Action} {rest : List Action}
    (reached : (clusterSystem hash d).ReachableUnder WithinLap s)
    (stepped : (clusterSystem hash d).step s a = some t)
    (later : (clusterSystem hash d).run t rest = some u) (caught_up : CaughtUp u)
    (intact : ∀ i, SlotsIntact (u.node i)) : WithinLap s a := by
  have before := reached.reachable
  have after := before.next a stepped
  have flow := flow_reachable before
  have control := control_reachable before
  have fires := fires_of_step stepped
  constructor
  · by_contra crowded
    cases a with
    | admission i tsc =>
      have submissions := submission_under (fun _ _ within => within.room) reached
      exact submissions.taken flow control fires crowded (intact_start rest after later (intact i)).2
    | _ => exact crowded trivial
  · intro j m handed
    by_contra far
    have handled : m ∈ (t.node j).hist.handled := by
      rw [fires.handled flow j]
      exact List.mem_append_right _ handed
    have overrun := far_handled (retained_reachable before) flow control fires handled far
    rcases overrun.run rest after later with ⟨still, ahead⟩ | lost
    · exact ahead (caught_up j m still)
    · exact lost (intact j).1

theorem meets_of_intact (schedule : List Action)
    (reached : (clusterSystem hash d).ReachableUnder WithinLap s)
    (ran : (clusterSystem hash d).run s schedule = some u) (caught_up : CaughtUp u)
    (intact : ∀ i, SlotsIntact (u.node i)) : (clusterSystem hash d).Meets WithinLap s schedule := by
  induction schedule generalizing s with
  | nil => trivial
  | cons a rest ih =>
    obtain ⟨t, stepped, later⟩ := Option.bind_eq_some_iff.mp ran
    have within := within_of_intact reached stepped later caught_up intact
    intro t' same
    rw [stepped] at same
    obtain rfl := Option.some.inj same
    exact ⟨within, ih (.next a reached within stepped) later⟩

/-! ### The condition on runs -/

/-- For every schedule of the three nodes' steps: if each step meets the condition, no state of
the run has lost a live entry; and a run that ends with its nodes caught up and nothing
lost met the condition at each step. -/
theorem slots_intact_iff_within_lap (hash : Bytes → Nat) (d : Deployment) (schedule : List Action)
    (u : Cluster) (ran : (clusterSystem hash d).run (Cluster.initial d) schedule = some u) :
    ((clusterSystem hash d).Meets WithinLap (Cluster.initial d) schedule →
      ∀ i, SlotsIntact (u.node i)) ∧
    (CaughtUp u → (∀ i, SlotsIntact (u.node i)) →
      (clusterSystem hash d).Meets WithinLap (Cluster.initial d) schedule) := by
  constructor
  · intro meets i
    exact intact_of_under (.of_meets schedule (.start rfl) meets ran) i
  · exact meets_of_intact schedule (.start rfl) ran

/-- The same under the admission test of the source, while its numbers are 64-bit values. -/
theorem slots_intact_words
    (reached : (clusterWords hash d).ReachableUnder (fun s a => AdmittedFit s a ∧ WithinLap s a) s)
    (i : NodeId) : SlotsIntact (s.node i) :=
  intact_of_under ((reachable_of_words (fun _ _ allowed => allowed.1) reached).weaken
    fun _ _ allowed => allowed.2) i

/-! ### Settings that leave room -/

theorem small_of_spaced (spaced : Spaced d) (i : NodeId) :
    leadBound (d.settings i) ≤ pendingLead := by
  have lap : kCompletionSlots = 65536 := rfl
  have bound : pendingLead = 196608 := rfl
  obtain ⟨other, different⟩ := exists_ne i
  have room := spaced other i different
  omega

/-- Where the bounds of every two nodes add up to less than a lap, every step meets the
condition. -/
theorem withinLap_of_spaced {a : Action} (spaced : Spaced d)
    (reached : (clusterSystem hash d).Reachable s)
    (stepped : (clusterSystem hash d).step s a = some t) : WithinLap s a where
  room := (submission_reachable (small_of_spaced spaced) reached).room (small_of_spaced spaced)
    (flow_reachable reached) (control_reachable reached) (fires_of_step stepped)
  near := handedNear_of_spaced spaced reached a

/-- The default settings leave room: node 1's write is executed at every node. -/
theorem slots_intact_oneWrite :
    ∃ u, (clusterSystem List.length oneWrite).run (Cluster.initial oneWrite)
        deliverEverywhere = some u ∧
      (∀ i, (u.node i).executeNext = 2) ∧ ∀ i, SlotsIntact (u.node i) := by
  obtain ⟨u, ran, executed⟩ : ∃ u, (clusterSystem List.length oneWrite).run
      (Cluster.initial oneWrite) deliverEverywhere = some u ∧ ∀ i, (u.node i).executeNext = 2 :=
    ⟨_, rfl, fun i => by fin_cases i <;> rfl⟩
  refine ⟨u, ran, executed, (slots_intact_iff_within_lap List.length oneWrite _ u ran).1 ?_⟩
  have spaced : Spaced oneWrite := by
    intro i j _
    change max (max 192 (3 * 32 + 3)) 1539 + max (max 192 (3 * 32 + 3)) 1539 + 2 ≤ 65536
    decide
  exact TransitionSystem.Reachable.meets (fun _ _ _ => withinLap_of_spaced spaced)
    deliverEverywhere (.start rfl)

/-! ### A configuration without room -/

theorem step_submit (hash : Bytes → Nat) (bufs : Nat → Mem) {s : Cluster} {i : NodeId}
    {batch : List BorrowedRequest} {later : List (List BorrowedRequest)}
    (pc : s.client i = .replay) (todo : s.input i = batch :: later) :
    ∃ t, s.step hash (.submit i bufs) = some t ∧
      t.node i = (buildProposals bufs batch (s.node i, [])).1 ∧
      t.client i = nextChunk (admissionBatchCapacity
        (buildProposals bufs batch (s.node i, [])).2.length (s.node i).cfg.admissionBatch)
        (buildProposals bufs batch (s.node i, [])).2 := by
  simp only [Cluster.step, Cluster.submitStep, pc, todo]
  exact ⟨_, rfl, by simp [Cluster.setNode, Cluster.setClient],
    by simp [Cluster.setNode, Cluster.setClient]⟩

theorem step_admission (hash : Bytes → Nat) (tsc : Nat → Nat) {s : Cluster} {i : NodeId} {cap : Nat}
    {chunk rest : List BandleMessage} (pc : s.client i = .admission cap chunk rest)
    (fits : (s.node i).Admits chunk.length) :
    ∃ t, s.step hash (.admission i tsc) = some t := by
  simp only [Cluster.step, Cluster.admitStep, pc, if_pos fits]
  exact ⟨_, rfl⟩

theorem proposalsOf_length (nodeId : Nat) (bufs : Nat → Mem) (k : Nat)
    (reqs : List BorrowedRequest) :
    (proposalsOf nodeId bufs k reqs).length = (validRequests reqs).length :=
  (carries_proposalsOf nodeId bufs k reqs).length_eq.symm

/-- Whatever the windows are, an admission batch of more than `kCompletionSlots`
is enough: a first array of that many valid requests is admitted in one piece. -/
theorem large_batch_overwrites (hash : Bytes → Nat) (d : Deployment) (i : NodeId)
    {batch : List BorrowedRequest} {later : List (List BorrowedRequest)}
    (todo : d.input i = batch :: later)
    (many : (validRequests batch).length = kCompletionSlots + 1)
    (large : kCompletionSlots + 1 ≤ (d.settings i).admissionBatch) :
    ∃ s, (clusterSystem hash d).Reachable s ∧ ¬ SlotsIntact (s.node i) := by
  have lap : kCompletionSlots = 65536 := rfl
  have built := buildProposals_eq (fun _ _ => 0) batch ((Cluster.initial d).node i, [])
  generalize proposalsEq : (buildProposals (fun _ _ => 0) batch
    ((Cluster.initial d).node i, [])).2 = msgs
  generalize nodeEq : (buildProposals (fun _ _ => 0) batch ((Cluster.initial d).node i, [])).1 = n
  have length : msgs.length = kCompletionSlots + 1 := by
    rw [← proposalsEq, built, List.nil_append, proposalsOf_length, many]
  have cap : admissionBatchCapacity msgs.length ((Cluster.initial d).node i).cfg.admissionBatch =
      msgs.length := by
    have settings : ((Cluster.initial d).node i).cfg = d.settings i := rfl
    rw [settings]
    unfold admissionBatchCapacity
    omega
  have whole : nextChunk msgs.length msgs = .admission msgs.length msgs [] := by
    unfold nextChunk
    have some : msgs.isEmpty = false := by
      cases msgs with
      | nil => simp at length
      | cons m rest => rfl
    rw [some, List.take_length, List.drop_length]
    rfl
  have fresh : n.cfg = d.settings i ∧ n.nextSeq = (d.settings i).nodeId ∧ n.executeNext = 1 ∧
      n.acct.pendingCount = 0 := by
    rw [← nodeEq, built]
    exact ⟨rfl, rfl, rfl, rfl⟩
  obtain ⟨cfg, nextSeq, executeNext, none⟩ := fresh
  -- the call builds the array, then admits it
  obtain ⟨t, submitted, node, pc⟩ :=
    step_submit hash (fun _ _ => 0) (s := Cluster.initial d) (i := i) rfl todo
  rw [proposalsEq, cap, whole] at pc
  rw [nodeEq] at node
  have fits : (t.node i).Admits msgs.length := by
    have id := (d.settings i).node_le
    have three := (d.settings i).three
    have small : msgs.length % 2 ^ 32 = msgs.length := Nat.mod_eq_of_lt (by omega)
    unfold Admits chunkWindow maxInflightSeqWindow
    rw [small, node, cfg, three]
    omega
  obtain ⟨u, admitted⟩ := step_admission hash (fun _ => 0) pc fits
  have first : (clusterSystem hash d).ReachableUnder AdmissionRoom t :=
    .next (.submit i fun _ _ => 0) (.start rfl) trivial submitted
  have reached := first.reachable
  have overwritten := (submission_under (fun _ _ room => room) first).taken (flow_reachable reached)
    (control_reachable reached) (fires_of_step admitted) (by
      simp only [AdmissionRoom, pc, Client.admitting, node, none, length]
      omega)
  exact ⟨u, reached.next (.admission i fun _ => 0) admitted, fun intact => overwritten intact.2⟩

/-- Node 1 admits up to 65537 requests at once; everything else is `main`'s default. -/
def floodArgs (i : NodeId) : Args :=
  if i = 0 then { defaultArgs 0 with admissionBatch := ⟨65537, by decide⟩ } else defaultArgs i

def floodSettings (i : NodeId) : Settings :=
  if i = 0 then { defaultSettings 0 with
    admissionBatch := 65537, batch_pos := by decide, batch_lt := by decide }
  else defaultSettings i

/-- One array of 65537 reads is submitted at node 1. -/
def flood : Deployment where
  settings := floodSettings
  ids i := by fin_cases i <;> rfl
  preload := .empty
  input i := if i = 0 then [List.replicate 65537 (.ofBytes opG [1] [])] else []
  startNs _ := 0

/-- The constructor accepts the settings, and the first admission critical section
of node 1 overwrites the slot of a request that is not done. -/
theorem slots_not_always_intact :
    (∀ i, Settings.ofArgs (floodArgs i) = some (flood.settings i)) ∧
      ∃ s, (clusterSystem List.length flood).Reachable s ∧ ¬ SlotsIntact (s.node 0) := by
  refine ⟨fun i => by fin_cases i <;> rfl, ?_⟩
  have todo : flood.input 0 = [List.replicate 65537 (.ofBytes opG [1] [])] := rfl
  refine large_batch_overwrites List.length flood 0 todo ?_ (Nat.le_refl 65537)
  have valid : validOp (BorrowedRequest.ofBytes opG [1] []).op = true := by decide
  rw [validRequests, List.filter_replicate, if_pos valid, List.length_replicate]
  rfl

end BandleCxl.Guarantees
