import BandleCxl.Invariant.Retained

/-!
Handling within one lap. If every proposal is handled while its number is less than
`kCompletionSlots` ahead of `execute_next_`, the live entries of a node never share a
slot. One that is handled earlier than that sits in the slot of a number that the
node still has to execute, so it costs a live entry before the node gets past it.
-/
namespace BandleCxl.Invariant
open Library Source Bandle

/-- The chunk that the client thread is about to deliver to its own node. -/
def Client.delivering : ClientPc → List BandleMessage
  | .deliver _ chunk _ => chunk
  | _ => []

def Proposer.delivering : ProposerPc → List BandleMessage
  | .deliver p => [p]
  | _ => []

/-- The proposals that an action hands to `handle_proposal_locked` of node `j`. -/
def handedTo (s : Cluster) (j : NodeId) : Action → List BandleMessage
  | .selfDeliver i _ => if i = j then Client.delivering (s.client i) else []
  | .handle i src _ => if i = j then (s.recv i src).take kHandleChunk else []
  | .noopDeliver i _ => if i = j then Proposer.delivering (s.proposer i) else []
  | _ => []

/-- The number of the proposal is less than a lap ahead of `execute_next_`. -/
def Near (n : Bandle) (m : BandleMessage) : Prop :=
  m.body.seq < n.executeNext + kCompletionSlots

/-- Every proposal that the action hands over is near. -/
def HandedNear (s : Cluster) (a : Action) : Prop := ∀ j, ∀ m ∈ handedTo s j a, Near (s.node j) m

variable {hash : Bytes → Nat} {preload : KVStore} {d : Deployment} {s t : Cluster} {a : Action}

/-! ### What an action hands over -/

theorem handedTo_inflight {j : NodeId} {m : BandleMessage} (handed : m ∈ handedTo s j a) :
    ∃ i, m ∈ inflight s i j := by
  cases a with
  | selfDeliver i tsc =>
    simp only [handedTo] at handed
    split at handed
    · next here =>
      subst i
      refine ⟨j, ?_⟩
      cases pc : s.client j with
      | deliver cap chunk rest =>
        simp only [pc, Client.delivering] at handed
        simp [inflight, pc, Client.unsent, handed]
      | _ => simp [pc, Client.delivering] at handed
    · cases handed
  | handle i src tsc =>
    simp only [handedTo] at handed
    split at handed
    · next here =>
      subst i
      exact ⟨src, chunk_inflight s j src m handed⟩
    · cases handed
  | noopDeliver i tsc =>
    simp only [handedTo] at handed
    split at handed
    · next here =>
      subst i
      refine ⟨j, ?_⟩
      cases pc : s.proposer j with
      | deliver p =>
        simp only [pc, Proposer.delivering] at handed
        simp [inflight, pc, Proposer.unsent, handed]
      | _ => simp [pc, Proposer.delivering] at handed
    · cases handed
  | _ => cases handed

theorem setNode_handled {k : NodeId} {n : Bandle} {msgs : List BandleMessage}
    (moved : n.hist.handled = (s.node k).hist.handled ++ msgs) (j : NodeId) :
    ((s.setNode k n).node j).hist.handled =
      (s.node j).hist.handled ++ if k = j then msgs else [] := by
  by_cases here : k = j
  · subst j
    simpa only [Cluster.setNode, Function.update_self, if_true] using moved
  · simp only [Cluster.setNode, Function.update_of_ne (Ne.symm here), if_neg here, List.append_nil]

/-- The proposals handed over are what the step adds to the handled ones. -/
theorem Fires.handled (flow : FlowInv hash preload s) (fires : Fires hash s a t) (j : NodeId) :
    (t.node j).hist.handled = (s.node j).hist.handled ++ handedTo s j a := by
  have still : (s.node j).hist.handled = (s.node j).hist.handled ++ [] :=
    (List.append_nil _).symm
  have unmoved : ∀ (k : NodeId) (n : Bandle), n.hist.handled = (s.node k).hist.handled →
      ((s.setNode k n).node j).hist.handled = (s.node j).hist.handled ++ [] := by
    intro k n same
    have moved : ((s.setNode k n).node j).hist.handled =
        (s.node j).hist.handled ++ if k = j then [] else [] := setNode_handled (by simpa using same) j
    simpa using moved
  cases fires with
  | @submit i bufs batch later pc todo =>
    exact unmoved i _ (by rw [buildProposals_eq])
  | @admission i tsc cap chunk rest pc fits =>
    exact unmoved i _ (Numbers.chunk (s.node i) chunk).handled
  | @selfDeliver i tsc cap chunk rest pc =>
    simp only [handedTo, pc, Client.delivering]
    refine setNode_handled (s := s) ?_ j
    rw [advance_handled, foldl_handleProposal, recordAll_handled]
  | @markInputDone i pc todo => exact unmoved i _ rfl
  | @stop i pc finished => exact unmoved i _ rfl
  | @handle k src tsc batch =>
    refine setNode_handled (s := s) ?_ j
    rw [handleChunk_proposals _ _ (fun m member => flow.proposals src k m
      (chunk_inflight s k src m member)) (chunk_ne_nil batch), advance_handled, recordAll_handled]
  | @noopNumber i now p pc => exact unmoved i _ rfl
  | @noopDeliver i tsc p pc =>
    simp only [handedTo, pc, Proposer.delivering]
    refine setNode_handled (s := s) ?_ j
    exact (advance_handled tsc _).trans (recordAll_handled (s.node i) [p])
  | _ => exact still

/-! ### Runs that stay within a lap -/

/-- Nothing was lost, and nothing was handled too early. -/
def LapInv (s : Cluster) : Prop :=
  ∀ j, (s.node j).hist.resetLive = [] ∧ ∀ m ∈ (s.node j).hist.handled, Near (s.node j) m

theorem LapInv.step (h : LapInv s) (flow : FlowInv hash preload s) (control : ControlInv d s)
    (near : HandedNear s a) (fires : Fires hash s a t) : LapInv t := by
  intro j
  obtain ⟨clean, close⟩ := h j
  have effect := effect_of_fires control flow.proposals fires
  obtain same | ⟨msgs, numbers⟩ | ⟨i, tsc, msgs, flying, node⟩ := effect.at_node j
  · refine ⟨same.resetLive.trans clean, fun m member => ?_⟩
    rw [Near, same.next]
    exact close m (same.handled ▸ member)
  · refine ⟨numbers.resetLive.trans clean, fun m member => ?_⟩
    rw [Near, numbers.next]
    exact close m (numbers.handled ▸ member)
  · have all : ∀ m ∈ (s.node j).hist.handled ++ msgs, Near (s.node j) m := by
      have added := fires.handled flow j
      rw [node, advance_handled, recordAll_handled] at added
      rw [List.append_cancel_left added]
      intro m member
      exact (List.mem_append.mp member).elim (close m) (near j m)
    have distinct := (flow.effect effect).distinct j
    rw [node, advance_handled, recordAll_handled] at distinct
    have count := (flow.replica j).count
    constructor
    · rw [node, advance_resetLive, recordAll_resetLive (flow.replica j) (by omega)
        (flow.arriving flying) (spread_of_near distinct all)]
      exact clean
    · intro m member
      have ahead : (s.node j).executeNext ≤
          ((recordAll (s.node j) msgs).advanceExecuteLocked hash tsc).executeNext :=
        ((ProposingSame.recordAll (s.node j) msgs).trans (.advance _)).next_le
      rw [node, advance_handled, recordAll_handled] at member
      rw [node]
      exact Nat.lt_of_lt_of_le (all m member) (Nat.add_le_add_right ahead _)

theorem lap_under {ok : Cluster → Action → Prop} (near : ∀ s a, ok s a → HandedNear s a)
    {s : Cluster} (reached : (clusterSystem hash d).ReachableUnder ok s) : LapInv s := by
  refine cluster_invariant_under (P := LapInv) (fun _ => ⟨rfl, fun m none => by cases none⟩) ?_ reached
  intro s a t before holds allowed fires
  exact holds.step (flow_reachable before) (control_reachable before) (near s a allowed) fires

/-! ### Settings that leave room -/

/-- Two bounds together leave no room for a collision in the slot arrays. -/
def Spaced (d : Deployment) : Prop :=
  ∀ i j, i ≠ j →
    leadBound (d.settings i) + leadBound (d.settings j) + 2 ≤ kCompletionSlots

theorem numbered_near (spaced : Spaced d) (h : FlowInv hash preload s) (control : ControlInv d s)
    {i : NodeId} (j : NodeId) {m : BandleMessage} (numbered : m ∈ (s.node i).hist.numbered) :
    Near (s.node j) m := by
  unfold Near
  by_cases own : i = j
  · subst i
    obtain ⟨k, -, -, bound⟩ := h.seq_of_mem numbered
    have lead := (control.node j).lead
    obtain ⟨other, different⟩ := exists_ne j
    have room := spaced other j different
    omega
  · have skew := numbered_skew h control i j numbered
    have room := spaced i j own
    omega

/-- Then every step is within a lap. -/
theorem handedNear_of_spaced (spaced : Spaced d) {s : Cluster}
    (reached : (clusterSystem hash d).Reachable s) (a : Action) : HandedNear s a := by
  have flow := flow_reachable reached
  intro j m handed
  obtain ⟨i, flying⟩ := handedTo_inflight handed
  exact numbered_near spaced flow (control_reachable reached) j (flow.inflight_numbered flying)

/-- So no node has reset a live log slot. -/
theorem clean_reachable (spaced : Spaced d) {s : Cluster}
    (reached : (clusterSystem hash d).Reachable s) (j : NodeId) :
    (s.node j).hist.resetLive = [] :=
  (lap_under (fun _ _ near => near)
    (reached.under fun _ a _ before _ => handedNear_of_spaced spaced before a) j).1

/-! ### A proposal handled too early -/

/-- The node has handled a proposal a lap or more ahead, or it has lost a live entry. -/
def Overrun (n : Bandle) (m : BandleMessage) : Prop :=
  (m ∈ n.hist.handled ∧ ¬ Near n m) ∨ n.hist.resetLive ≠ []

/-- The entry of `m` stays in its slot until the number a lap below it is executed, which
needs the same slot. -/
theorem far_handled (retained : RetainedInv s) (flow : FlowInv hash preload s)
    (control : ControlInv d s) (fires : Fires hash s a t) {j : NodeId} {m : BandleMessage}
    (handled : m ∈ (t.node j).hist.handled) (far : ¬ Near (s.node j) m) : Overrun (t.node j) m := by
  have lap : kCompletionSlots = 65536 := rfl
  by_contra fine
  obtain ⟨missed, clean⟩ := not_or.mp fine
  have caught : Near (t.node j) m := by
    by_contra still
    exact missed ⟨handled, still⟩
  rw [not_not] at clean
  have effect := effect_of_fires control flow.proposals fires
  have after := flow.effect effect
  unfold Near at caught far
  obtain same | ⟨msgs, numbers⟩ | ⟨i, tsc, msgs, flying, node⟩ := effect.at_node j
  · rw [same.next] at caught
    exact far caught
  · rw [numbers.next] at caught
    exact far caught
  · have count := (flow.replica j).count
    obtain ⟨other, handled', below⟩ := after.executed_handled j
      (q := m.body.seq - kCompletionSlots) (by omega) (by omega)
    have distinct := after.distinct j
    rw [node, advance_handled, recordAll_handled] at distinct
    rw [node, advance_resetLive] at clean
    rw [node, advance_handled] at handled handled'
    have kept := retained.recorded flow flying distinct clean
    have next := recordAll_next (s.node j) msgs
    have here := (kept m handled (by omega)).1
    have there := (kept other handled' (by omega)).1
    have slot : slotOf other.body.seq = slotOf m.body.seq := by
      rw [slotOf_eq, slotOf_eq]
      omega
    rw [slot, here] at there
    omega

theorem resetLive_mono (flow : FlowInv hash preload s) (control : ControlInv d s)
    (fires : Fires hash s a t) (j : NodeId) :
    (s.node j).hist.resetLive <+: (t.node j).hist.resetLive := by
  obtain same | ⟨msgs, numbers⟩ | ⟨i, tsc, msgs, flying, node⟩ :=
    (effect_of_fires control flow.proposals fires).at_node j
  · rw [same.resetLive]
  · rw [numbers.resetLive]
  · rw [node, advance_resetLive]
    exact recordAll_resetLive_mono (s.node j) msgs

theorem Overrun.step {j : NodeId} {m : BandleMessage} (h : Overrun (s.node j) m)
    (reached : (clusterSystem hash d).Reachable s) (fires : Fires hash s a t) :
    Overrun (t.node j) m := by
  have flow := flow_reachable reached
  have control := control_reachable reached
  rcases h with ⟨handled, far⟩ | lost
  · refine far_handled (retained_reachable reached) flow control fires ?_ far
    rw [fires.handled flow j]
    exact List.mem_append_left _ handled
  · refine Or.inr fun empty => lost ?_
    have kept := resetLive_mono flow control fires j
    rwa [empty, List.prefix_nil] at kept

theorem Overrun.run {j : NodeId} {m : BandleMessage} {u : Cluster} (schedule : List Action)
    (h : Overrun (s.node j) m) (reached : (clusterSystem hash d).Reachable s)
    (ran : (clusterSystem hash d).run s schedule = some u) : Overrun (u.node j) m := by
  induction schedule generalizing s with
  | nil =>
    obtain rfl := Option.some.inj ran
    exact h
  | cons a rest ih =>
    obtain ⟨t, stepped, later⟩ := Option.bind_eq_some_iff.mp ran
    exact ih (h.step reached (fires_of_step stepped)) (.next a reached stepped) later

end BandleCxl.Invariant
