import BandleCxl.Invariant.Flow

/-!
Slot reuse in the log. A handled proposal stays in its slot until it is executed
unless the node resets a live slot, and it never does as long as no two proposals
that it holds or is about to get are a full lap apart.
-/
namespace BandleCxl.Invariant
open Library Source Bandle

/-- Every handled proposal that is not executed yet is in the log. -/
def Retained (n : Bandle) : Prop :=
  ∀ m ∈ n.hist.handled, n.executeNext ≤ m.body.seq → Holds n m

variable {hash : Bytes → Nat} {preload : KVStore} {d : Deployment} {s t : Cluster}

/-! ### One node -/

/-- A live proposal does not share its slot with the one being recorded. -/
def Apart (n : Bandle) (m : BandleMessage) : Prop :=
  ∀ m' ∈ n.hist.handled, n.executeNext ≤ m'.body.seq → slotOf m'.body.seq ≠ slotOf m.body.seq

theorem Retained.recordProposal {n : Bandle} {p : Nat} {m : BandleMessage} (kept : Retained n)
    (inv : ReplicaInv hash preload n) (wf : WellFormed p m) (pos : 1 ≤ m.body.seq)
    (fresh : n.executeNext ≤ m.body.seq) (apart : Apart n m) : Retained (n.recordProposal m) := by
  intro m' handled live
  have member : m' ∈ n.hist.handled ++ [m] := handled
  rcases List.mem_append.mp member with old | new
  · exact recordProposal_other n (kept m' old live) (apart m' old live)
  · rw [List.mem_singleton.mp new]
    refine recordProposal_holds n wf fun same => ?_
    obtain ⟨other, belongs, slot, held⟩ := inv.slots (slotOf m.body.seq) (by omega)
    have seq : other.body.seq = m.body.seq := by rw [← held.1, ← slot, same]
    exact apart other belongs (by omega) slot.symm

/-- A reset that hits no live entry leaves the live ones in other slots. -/
theorem Retained.apart {n : Bandle} {m : BandleMessage} (kept : Retained n)
    (harmless : ¬ n.HoldsLiveOther m.body.seq)
    (new : ∀ m' ∈ n.hist.handled, m'.body.seq ≠ m.body.seq) : Apart n m := by
  intro m' handled live slot
  obtain ⟨seq, known, decided, -⟩ := kept m' handled live
  rw [slot] at seq decided
  exact harmless ⟨by rw [seq]; exact new m' handled, decided, by omega⟩

theorem recordProposal_resetLive {n : Bandle} {m : BandleMessage} (inv : ReplicaInv hash preload n)
    (next : 1 ≤ n.executeNext) (apart : Apart n m) :
    (n.recordProposal m).hist.resetLive = n.hist.resetLive := by
  have harmless : ¬ n.HoldsLiveOther m.body.seq := by
    rintro ⟨-, -, live⟩
    obtain ⟨other, belongs, slot, held⟩ := inv.slots (slotOf m.body.seq) (by omega)
    have seq := held.1
    rw [← slot] at seq
    exact apart other belongs (by omega) slot.symm
  simp [Bandle.recordProposal, harmless]

/-- Resets are only ever added. -/
theorem recordAll_resetLive_mono (n : Bandle) (msgs : List BandleMessage) :
    n.hist.resetLive <+: (recordAll n msgs).hist.resetLive := by
  induction msgs generalizing n with
  | nil => exact List.prefix_rfl
  | cons m rest ih => exact (List.prefix_append _ _).trans (ih (n.recordProposal m))

theorem handled_recordProposal (n : Bandle) (m : BandleMessage) (rest : List BandleMessage) :
    (n.recordProposal m).hist.handled ++ rest = n.hist.handled ++ m :: rest := by
  simp [Bandle.recordProposal]

theorem Retained.recordAll {n : Bandle} {msgs : List BandleMessage} (kept : Retained n)
    (inv : ReplicaInv hash preload n) (next : 1 ≤ n.executeNext)
    (ok : ∀ m ∈ msgs, (∃ p, WellFormed p m) ∧ n.executeNext ≤ m.body.seq)
    (distinct : ((n.hist.handled ++ msgs).map fun m => m.body.seq).Nodup)
    (clean : (Invariant.recordAll n msgs).hist.resetLive = []) :
    Retained (Invariant.recordAll n msgs) := by
  induction msgs generalizing n with
  | nil => exact kept
  | cons m rest ih =>
    obtain ⟨⟨p, wf⟩, fresh⟩ := ok m (by simp)
    have harmless : ¬ n.HoldsLiveOther m.body.seq := by
      intro live
      have first := recordAll_resetLive_mono (n.recordProposal m) rest
      have last : (Invariant.recordAll (n.recordProposal m) rest).hist.resetLive = [] := clean
      rw [last, List.prefix_nil] at first
      simp [Bandle.recordProposal, live] at first
    have apart := kept.apart (m := m) harmless fun m' handled same => by
      rw [List.map_append, List.nodup_append] at distinct
      exact distinct.2.2 _ (List.mem_map_of_mem handled) _ (by simp) same
    refine ih (kept.recordProposal inv wf (by omega) fresh apart) (inv.recordProposal wf (by omega))
      next (fun m' member => ok m' (by simp [member])) ?_ clean
    rw [handled_recordProposal]
    exact distinct

theorem recordAll_next (n : Bandle) (msgs : List BandleMessage) :
    (recordAll n msgs).executeNext = n.executeNext := by
  induction msgs generalizing n with
  | nil => rfl
  | cons m rest ih => exact ih (n.recordProposal m)

/-- The live part of a list of proposals lies in pairwise different slots. -/
def Spread (n : Bandle) (msgs : List BandleMessage) : Prop :=
  msgs.Pairwise fun a b => n.executeNext ≤ a.body.seq → n.executeNext ≤ b.body.seq →
    slotOf a.body.seq ≠ slotOf b.body.seq

theorem recordAll_resetLive {n : Bandle} {msgs : List BandleMessage}
    (inv : ReplicaInv hash preload n) (next : 1 ≤ n.executeNext)
    (ok : ∀ m ∈ msgs, (∃ p, WellFormed p m) ∧ n.executeNext ≤ m.body.seq)
    (spread : Spread n (n.hist.handled ++ msgs)) :
    (recordAll n msgs).hist.resetLive = n.hist.resetLive := by
  induction msgs generalizing n with
  | nil => rfl
  | cons m rest ih =>
    obtain ⟨⟨p, wf⟩, fresh⟩ := ok m (by simp)
    have apart : Apart n m := fun m' handled live =>
      (List.pairwise_append.mp spread).2.2 m' handled m (by simp) live fresh
    have shifted : Spread (n.recordProposal m) ((n.recordProposal m).hist.handled ++ rest) := by
      rw [handled_recordProposal]
      exact spread
    have later := ih (inv.recordProposal wf (by omega)) next
      (fun m' member => ok m' (by simp [member])) shifted
    exact later.trans (recordProposal_resetLive inv next apart)

/-- Executing an entry frees its own slot, which no other live entry uses. -/
theorem Retained.executeEntry {n : Bandle} {tsc : Nat → Nat} (flag : Bool) (kept : Retained n)
    (ready : n.Executable n.executeNext) :
    Retained (Bandle.executeEntry hash tsc (n, flag)).1 := by
  intro m handled live
  have next : (Bandle.executeEntry hash tsc (n, flag)).1.executeNext = n.executeNext + 1 := rfl
  rw [next] at live
  have held := kept m handled (by omega)
  have apart : slotOf m.body.seq ≠ slotOf n.executeNext := by
    intro same
    have seq := held.1
    rw [same, ready.1] at seq
    omega
  refine held.of_slot ?_ rfl
  simp only [Bandle.executeEntry, completeEntry, Function.update_of_ne apart]

theorem Retained.advance {n : Bandle} {tsc : Nat → Nat} (kept : Retained n) :
    Retained (n.advanceExecuteLocked hash tsc) :=
  advance_invariant n (fun _ _ kept => kept) (fun _ flag kept ready => kept.executeEntry flag ready)
    kept

/-! ### The cluster -/

/-- A node that has reset no live slot has its unexecuted proposals in the log. -/
def RetainedInv (s : Cluster) : Prop :=
  ∀ j, (s.node j).hist.resetLive = [] → Retained (s.node j)

/-- Distinct numbers within one lap lie in distinct slots. -/
theorem spread_of_near {n : Bandle} {msgs : List BandleMessage}
    (distinct : (msgs.map fun m => m.body.seq).Nodup)
    (near : ∀ m ∈ msgs, m.body.seq < n.executeNext + kCompletionSlots) : Spread n msgs := by
  have pairs := List.pairwise_map.mp distinct
  refine (List.Pairwise.and_mem.mp pairs).imp ?_
  rintro a b ⟨memA, memB, different⟩ liveA liveB
  have nearA := near a memA
  have nearB := near b memB
  rcases Nat.lt_or_gt_of_ne different with lt | gt
  · exact slotOf_ne lt (by omega)
  · exact (slotOf_ne gt (by omega)).symm

theorem RetainedInv.initial (d : Deployment) : RetainedInv (Cluster.initial d) := by
  intro j _ m handled
  simp [Cluster.initial, Bandle.started] at handled

/-- A retained entry depends on the log and the histories only. -/
theorem Retained.congr {n n' : Bandle} (kept : Retained n) (log : n'.log = n.log)
    (payloads : n'.logPayloads = n.logPayloads) (next : n'.executeNext = n.executeNext)
    (handled : n'.hist.handled = n.hist.handled) : Retained n' := by
  intro m member live
  rw [handled] at member
  rw [next] at live
  exact (kept m member live).of_slot (by rw [log]) (by rw [payloads])

/-- What is in flight to a node is new there, well-formed and not executed. -/
theorem FlowInv.arriving (h : FlowInv hash preload s) {i j : NodeId} {msgs : List BandleMessage}
    (flying : ∀ m ∈ msgs, m ∈ inflight s i j) :
    ∀ m ∈ msgs, (∃ p, WellFormed p m) ∧ (s.node j).executeNext ≤ m.body.seq := by
  intro m member
  have numbered := h.inflight_numbered (flying m member)
  refine ⟨⟨_, h.wf i m numbered⟩, h.unhandled_ge numbered fun old => ?_⟩
  exact h.inflight_unhandled (flying m member) old rfl

/-- Between recording what arrived and executing it. -/
theorem RetainedInv.recorded (h : RetainedInv s) (flow : FlowInv hash preload s) {i j : NodeId}
    {msgs : List BandleMessage} (flying : ∀ m ∈ msgs, m ∈ inflight s i j)
    (distinct : (((s.node j).hist.handled ++ msgs).map fun m => m.body.seq).Nodup)
    (clean : (recordAll (s.node j) msgs).hist.resetLive = []) :
    Retained (recordAll (s.node j) msgs) := by
  have old := recordAll_resetLive_mono (s.node j) msgs
  rw [clean, List.prefix_nil] at old
  have count := (flow.replica j).count
  exact (h j old).recordAll (flow.replica j) (by omega) (flow.arriving flying) distinct clean

theorem RetainedInv.effect (h : RetainedInv s) (before : FlowInv hash preload s)
    (after : FlowInv hash preload t) (effect : Effect hash s t) : RetainedInv t := by
  intro j clean
  obtain same | ⟨msgs, numbers⟩ | ⟨i, tsc, msgs, flying, node⟩ := effect.at_node j
  · rw [same.resetLive] at clean
    exact (h j clean).congr same.log same.payloads same.next same.handled
  · rw [numbers.resetLive] at clean
    exact (h j clean).congr numbers.log numbers.payloads numbers.next numbers.handled
  · rw [node, advance_resetLive] at clean
    have distinct := after.distinct j
    rw [node, advance_handled, recordAll_handled] at distinct
    rw [node]
    exact (h.recorded before flying distinct clean).advance

theorem retained_reachable {s : Cluster} (reached : (clusterSystem hash d).Reachable s) :
    RetainedInv s := by
  refine cluster_invariant (P := RetainedInv) (.initial d) ?_ reached
  intro s a t before holds fires
  have flow := flow_reachable before
  have effect := effect_of_fires (control_reachable before) flow.proposals fires
  exact holds.effect flow (flow.effect effect) effect

end BandleCxl.Invariant
