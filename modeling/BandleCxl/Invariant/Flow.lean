import BandleCxl.Invariant.Effect

/-!
Conservation of proposals. What a node has handled from a proposer, followed by
what is still in flight between them, is an initial part of what the proposer has
numbered; while the proposer runs it is all of it. A number therefore names one
proposal in the whole cluster, and a node can execute a number only after the
owner of that number has handed it out.
-/
namespace BandleCxl.Invariant
open Library Source Bandle

/-- Proposals of `i` in the order `j` handled them. -/
def handledFrom (s : Cluster) (i j : NodeId) : List BandleMessage :=
  (s.node j).hist.handled.filter fun m => m.body.proposer = number i

structure FlowInv (hash : Bytes → Nat) (preload : KVStore) (s : Cluster) : Prop where
  seqs : ∀ i k m, (s.node i).hist.numbered[k]? = some m → m.body.seq = number i + 3 * k
  wf : ∀ i, ∀ m ∈ (s.node i).hist.numbered, WellFormed (number i) m
  next : ∀ i, (s.node i).nextSeq = number i + 3 * (s.node i).hist.numbered.length
  flow : ∀ i j, (handledFrom s i j ++ inflight s i j).Sublist (s.node i).hist.numbered
  kept : ∀ i j, (s.node i).running = true →
    handledFrom s i j ++ inflight s i j = (s.node i).hist.numbered
  origin : ∀ j, ∀ m ∈ (s.node j).hist.handled, ∃ i, m.body.proposer = number i
  distinct : ∀ j, ((s.node j).hist.handled.map fun m => m.body.seq).Nodup
  replica : ∀ j, ReplicaInv hash preload (s.node j)
  drained : ∀ j, ¬ (s.node j).Executable (s.node j).executeNext

variable {hash : Bytes → Nat} {preload : KVStore} {d : Deployment} {s t : Cluster}

theorem number_inj {i j : NodeId} (same : number i = number j) : i = j := by
  unfold number at same
  exact Fin.ext (by omega)

/-- Numbers of different nodes lie in different residue classes. -/
theorem seq_owner {i j : NodeId} {k l : Nat} (same : number i + 3 * k = number j + 3 * l) :
    i = j ∧ k = l := by
  have := i.isLt
  have := j.isLt
  unfold number at same
  exact ⟨Fin.ext (by omega), by omega⟩

/-! ### History under delivery -/

theorem recordAll_handled (n : Bandle) (msgs : List BandleMessage) :
    (recordAll n msgs).hist.handled = n.hist.handled ++ msgs := by
  induction msgs generalizing n with
  | nil => simp [recordAll]
  | cons m rest ih =>
    have first : (n.recordProposal m).hist.handled = n.hist.handled ++ [m] := rfl
    have rest := ih (n.recordProposal m)
    rw [first, List.append_assoc] at rest
    exact rest

theorem advance_handled (tsc : Nat → Nat) (n : Bandle) :
    (n.advanceExecuteLocked hash tsc).hist.handled = n.hist.handled :=
  advance_invariant (P := fun m => m.hist.handled = n.hist.handled) n (fun _ _ same => same)
    (fun _ _ same _ => same) rfl

theorem advance_resetLive (tsc : Nat → Nat) (n : Bandle) :
    (n.advanceExecuteLocked hash tsc).hist.resetLive = n.hist.resetLive :=
  advance_invariant (P := fun m => m.hist.resetLive = n.hist.resetLive) n (fun _ _ same => same)
    (fun _ _ same _ => same) rfl

/-! ### Consequences of conservation -/

theorem FlowInv.handled_numbered (h : FlowInv hash preload s) {j : NodeId} {m : BandleMessage}
    (handled : m ∈ (s.node j).hist.handled) :
    ∃ i, m.body.proposer = number i ∧ m ∈ (s.node i).hist.numbered := by
  obtain ⟨i, own⟩ := h.origin j m handled
  refine ⟨i, own, (h.flow i j).subset (List.mem_append_left _ ?_)⟩
  exact List.mem_filter.mpr ⟨handled, by simpa using own⟩

theorem FlowInv.inflight_numbered (h : FlowInv hash preload s) {i j : NodeId} {m : BandleMessage}
    (flying : m ∈ inflight s i j) : m ∈ (s.node i).hist.numbered :=
  (h.flow i j).subset (List.mem_append_right _ flying)

theorem FlowInv.seq_of_mem (h : FlowInv hash preload s) {i : NodeId} {m : BandleMessage}
    (numbered : m ∈ (s.node i).hist.numbered) :
    ∃ k, (s.node i).hist.numbered[k]? = some m ∧ m.body.seq = number i + 3 * k ∧
      m.body.seq + 3 ≤ (s.node i).nextSeq := by
  obtain ⟨k, found⟩ := List.getElem?_of_mem numbered
  have seq := h.seqs i k m found
  have next := h.next i
  have inside := (List.getElem?_eq_some_iff.mp found).1
  exact ⟨k, found, seq, by omega⟩

/-- A number names one proposal. -/
theorem FlowInv.unique (h : FlowInv hash preload s) {i j : NodeId} {m m' : BandleMessage}
    (first : m ∈ (s.node i).hist.numbered) (second : m' ∈ (s.node j).hist.numbered)
    (same : m.body.seq = m'.body.seq) : i = j ∧ m = m' := by
  obtain ⟨k, found, seq, -⟩ := h.seq_of_mem first
  obtain ⟨l, found', seq', -⟩ := h.seq_of_mem second
  obtain ⟨node, index⟩ := seq_owner (seq.symm.trans (same.trans seq'))
  subst node
  subst index
  rw [found] at found'
  exact ⟨rfl, Option.some.inj found'⟩

/-- Every number below `execute_next_` was handled. -/
theorem FlowInv.executed_handled (h : FlowInv hash preload s) (j : NodeId) {q : Nat} (pos : 1 ≤ q)
    (below : q < (s.node j).executeNext) : ∃ m ∈ (s.node j).hist.handled, m.body.seq = q := by
  have count := (h.replica j).count
  have inside : q - 1 < (s.node j).hist.executed.length := by omega
  obtain ⟨m, handled, seq, -⟩ := (h.replica j).executed (q - 1) _ (List.getElem?_eq_getElem inside)
  exact ⟨m, handled, by omega⟩

/-- No node's `execute_next_` passes any node's `next_seq_`. -/
theorem FlowInv.next_le (h : FlowInv hash preload s) (i j : NodeId) :
    (s.node i).executeNext ≤ (s.node j).nextSeq := by
  by_contra passed
  have next := h.next j
  obtain ⟨m, handled, seq⟩ := h.executed_handled i (q := (s.node j).nextSeq)
    (by unfold number at next; omega) (by omega)
  obtain ⟨l, -, numbered⟩ := h.handled_numbered handled
  obtain ⟨k, found, seq', bound⟩ := h.seq_of_mem numbered
  obtain ⟨node, -⟩ := seq_owner (i := l) (j := j) (k := k)
    (l := (s.node j).hist.numbered.length) (by omega)
  subst node
  omega

theorem FlowInv.unhandled_ge (h : FlowInv hash preload s) {i j : NodeId} {m : BandleMessage}
    (numbered : m ∈ (s.node i).hist.numbered) (unhandled : m ∉ (s.node j).hist.handled) :
    (s.node j).executeNext ≤ m.body.seq := by
  by_contra below
  obtain ⟨k, -, seq, -⟩ := h.seq_of_mem numbered
  obtain ⟨m', handled, same⟩ := h.executed_handled j (q := m.body.seq)
    (by unfold number at seq; omega) (by omega)
  obtain ⟨l, -, numbered'⟩ := h.handled_numbered handled
  exact unhandled ((h.unique numbered' numbered same).2 ▸ handled)

/-- Two-node skew: what `i` has numbered is bounded in terms of `j`'s progress. -/
theorem numbered_skew (h : FlowInv hash preload s) (control : ControlInv d s) (i j : NodeId)
    {m : BandleMessage} (numbered : m ∈ (s.node i).hist.numbered) :
    m.body.seq < (s.node j).executeNext + leadBound (d.settings i) + leadBound (d.settings j) + 2 := by
  obtain ⟨k, -, -, bound⟩ := h.seq_of_mem numbered
  have lead := (control.node i).lead
  have cross := h.next_le i j
  have own := (control.node j).lead
  omega

theorem FlowInv.numbered_nodup (h : FlowInv hash preload s) (i : NodeId) :
    (s.node i).hist.numbered.Nodup := by
  rw [List.nodup_iff_injective_get]
  intro a b same
  have seqA := h.seqs i a _ (List.getElem?_eq_getElem a.isLt)
  have seqB := h.seqs i b _ (List.getElem?_eq_getElem b.isLt)
  simp only [List.get_eq_getElem] at same
  rw [same] at seqA
  exact Fin.ext (by omega)

/-- In flight means not handled. -/
theorem FlowInv.inflight_unhandled (h : FlowInv hash preload s) {i j : NodeId}
    {m m' : BandleMessage} (flying : m ∈ inflight s i j) (handled : m' ∈ (s.node j).hist.handled) :
    m'.body.seq ≠ m.body.seq := by
  intro same
  obtain ⟨l, own, numbered⟩ := h.handled_numbered handled
  obtain ⟨node, eq⟩ := h.unique numbered (h.inflight_numbered flying) same
  subst node
  subst eq
  have once := (h.flow l j).nodup (h.numbered_nodup l)
  exact List.disjoint_of_nodup_append once
    (List.mem_filter.mpr ⟨handled, by simpa using own⟩) flying

/-! ### Preservation -/

theorem FlowInv.initial (hash : Bytes → Nat) (d : Deployment) :
    FlowInv hash d.preload (Cluster.initial d) where
  seqs i k m found := by simp [Cluster.initial, Bandle.started] at found
  wf i m member := by simp [Cluster.initial, Bandle.started] at member
  next i := by simp [Cluster.initial, Bandle.started, d.ids i]
  flow i j := by
    simp [handledFrom, inflight, Cluster.initial, Bandle.started, Client.unsent, Proposer.unsent]
  kept i j _ := by
    simp [handledFrom, inflight, Cluster.initial, Bandle.started, Client.unsent, Proposer.unsent]
  origin j m member := by simp [Cluster.initial, Bandle.started] at member
  distinct j := by simp [Cluster.initial, Bandle.started]
  replica j := .started _ _
  drained j ready := by
    have seq : (0 : Nat) = 1 := ready.1
    omega

theorem ReplicaInv.same {n n' : Bandle} (h : ReplicaInv hash preload n)
    (same : SameProtocol n n') : ReplicaInv hash preload n' :=
  h.frame same.cfg same.log same.payloads same.next same.kv same.handled same.executed
    same.completed

theorem FlowInv.quiet (h : FlowInv hash preload s)
    (nodes : ∀ k, SameProtocol (s.node k) (t.node k))
    (flow : ∀ i j, (inflight t i j).Sublist (inflight s i j))
    (kept : ∀ i j, (s.node i).running = true → inflight t i j = inflight s i j) :
    FlowInv hash preload t := by
  have handled : ∀ i j, handledFrom t i j = handledFrom s i j := by
    intro i j
    rw [handledFrom, handledFrom, (nodes j).handled]
  refine ⟨?_, ?_, ?_, ?_, ?_, ?_, ?_, fun j => (h.replica j).same (nodes j), ?_⟩
  · intro i
    rw [(nodes i).numbered]
    exact h.seqs i
  · intro i
    rw [(nodes i).numbered]
    exact h.wf i
  · intro i
    rw [(nodes i).numbered, (nodes i).nextSeq]
    exact h.next i
  · intro i j
    rw [(nodes i).numbered, handled]
    exact ((flow i j).append_left _).trans (h.flow i j)
  · intro i j on
    have before := (nodes i).running on
    rw [(nodes i).numbered, handled, kept i j before]
    exact h.kept i j before
  · intro j
    rw [(nodes j).handled]
    exact h.origin j
  · intro j
    rw [(nodes j).handled]
    exact h.distinct j
  · intro j
    rw [(nodes j).next, executable_congr (congrFun (nodes j).log _)]
    exact h.drained j

theorem FlowInv.numbered (h : FlowInv hash preload s) {i : NodeId} {msgs : List BandleMessage}
    (numbers : Numbers (s.node i) (t.node i) msgs)
    (wf : ∀ m ∈ msgs, WellFormed (number i) m)
    (others : ∀ k, k ≠ i → t.node k = s.node k)
    (flow : ∀ j, inflight t i j = inflight s i j ++ msgs)
    (same : ∀ k j, k ≠ i → inflight t k j = inflight s k j) : FlowInv hash preload t := by
  have handled : ∀ k, (t.node k).hist.handled = (s.node k).hist.handled := by
    intro k
    by_cases moved : k = i
    · rw [moved]
      exact numbers.handled
    · rw [others k moved]
  have from_ : ∀ k j, handledFrom t k j = handledFrom s k j := by
    intro k j
    rw [handledFrom, handledFrom, handled]
  refine ⟨?_, ?_, ?_, ?_, ?_, ?_, ?_, ?_, ?_⟩
  · intro k l m found
    by_cases moved : k = i
    · subst k
      rw [numbers.numbered, List.getElem?_append] at found
      split at found
      · exact h.seqs i l m found
      · have next := h.next i
        have seq := numbers.seqs _ m found
        omega
    · rw [others k moved] at found
      exact h.seqs k l m found
  · intro k m member
    by_cases moved : k = i
    · subst k
      rw [numbers.numbered, List.mem_append] at member
      rcases member with old | new
      · exact h.wf _ m old
      · exact wf m new
    · rw [others k moved] at member
      exact h.wf k m member
  · intro k
    by_cases moved : k = i
    · subst k
      have next := h.next i
      rw [numbers.nextSeq, numbers.numbered, List.length_append]
      omega
    · rw [others k moved]
      exact h.next k
  · intro k j
    by_cases moved : k = i
    · subst k
      rw [from_, flow, numbers.numbered, ← List.append_assoc]
      exact (h.flow _ j).append_right _
    · rw [from_, same k j moved, others k moved]
      exact h.flow k j
  · intro k j on
    by_cases moved : k = i
    · subst k
      rw [numbers.running] at on
      rw [from_, flow, numbers.numbered, ← List.append_assoc, h.kept _ j on]
    · rw [others k moved] at on ⊢
      rw [from_, same k j moved]
      exact h.kept k j on
  · intro k
    rw [handled]
    exact h.origin k
  · intro k
    rw [handled]
    exact h.distinct k
  · intro k
    by_cases moved : k = i
    · subst k
      exact (h.replica _).frame numbers.cfg numbers.log numbers.payloads numbers.next numbers.kv
        numbers.handled numbers.executed numbers.completed
    · rw [others k moved]
      exact h.replica k
  · intro k
    by_cases moved : k = i
    · subst k
      rw [numbers.next, executable_congr (congrFun numbers.log _)]
      exact h.drained _
    · rw [others k moved]
      exact h.drained k

/-- Proposals on their way to a node can be recorded there. -/
theorem FlowInv.recorded (h : FlowInv hash preload s) {i j : NodeId} {msgs : List BandleMessage}
    (flying : ∀ m ∈ msgs, m ∈ inflight s i j) :
    ReplicaInv hash preload (recordAll (s.node j) msgs) := by
  refine (h.replica j).recordAll fun m member => ?_
  have numbered := h.inflight_numbered (flying m member)
  obtain ⟨_, -, seq, -⟩ := h.seq_of_mem numbered
  unfold Source.number at seq
  exact ⟨⟨_, h.wf i m numbered⟩, by omega⟩

/-- What arrives comes from one proposer, so only that flow moves. -/
theorem flow_conserved {i j : NodeId} {msgs : List BandleMessage}
    (wf : ∀ m ∈ msgs, WellFormed (number i) m)
    (handled : (t.node j).hist.handled = (s.node j).hist.handled ++ msgs)
    (others : ∀ k, k ≠ j → t.node k = s.node k)
    (flow : inflight s i j = msgs ++ inflight t i j)
    (same : ∀ k l, k ≠ i ∨ l ≠ j → inflight t k l = inflight s k l) (k l : NodeId) :
    handledFrom t k l ++ inflight t k l = handledFrom s k l ++ inflight s k l := by
  by_cases moved : l = j
  · subst l
    rw [handledFrom, handled, List.filter_append]
    by_cases sender : k = i
    · subst k
      have all : msgs.filter (fun m => m.body.proposer = number i) = msgs := by
        rw [List.filter_eq_self]
        intro m member
        simpa using (wf m member).proposer
      rw [all, flow, List.append_assoc]
      rfl
    · have none : msgs.filter (fun m => m.body.proposer = number k) = [] := by
        rw [List.filter_eq_nil_iff]
        intro m member
        simp only [decide_eq_true_eq, (wf m member).proposer]
        intro equal
        exact sender (number_inj equal).symm
      rw [none, List.append_nil, same k j (Or.inl sender)]
      rfl
  · rw [handledFrom, others l moved, same k l (Or.inr moved)]
    rfl

/-- The next messages of a flow have numbers of their own. -/
theorem FlowInv.distinct_arriving (h : FlowInv hash preload s) {i j : NodeId}
    {msgs later : List BandleMessage} (flow : inflight s i j = msgs ++ later) :
    (((s.node j).hist.handled ++ msgs).map fun m => m.body.seq).Nodup := by
  have flying : ∀ m ∈ msgs, m ∈ inflight s i j := by
    intro m member
    rw [flow]
    exact List.mem_append_left _ member
  rw [List.map_append]
  refine List.Nodup.append (h.distinct _) ?_ ?_
  · have ordered := (h.flow i j).nodup (h.numbered_nodup i)
    rw [flow, ← List.append_assoc] at ordered
    have once := (List.nodup_append.mp (List.nodup_append.mp ordered).1).2.1
    refine List.Nodup.map_on ?_ once
    intro a first b second equal
    exact (h.unique (h.inflight_numbered (flying a first))
      (h.inflight_numbered (flying b second)) equal).2
  · intro q old new
    obtain ⟨m', member', seq'⟩ := List.mem_map.mp old
    obtain ⟨m, member, seq⟩ := List.mem_map.mp new
    exact h.inflight_unhandled (flying m member) member' (seq'.trans seq.symm)

theorem FlowInv.delivered (h : FlowInv hash preload s) {i j : NodeId} {tsc : Nat → Nat}
    {msgs : List BandleMessage}
    (node : t.node j = (recordAll (s.node j) msgs).advanceExecuteLocked hash tsc)
    (others : ∀ k, k ≠ j → t.node k = s.node k)
    (flow : inflight s i j = msgs ++ inflight t i j)
    (same : ∀ k l, k ≠ i ∨ l ≠ j → inflight t k l = inflight s k l) : FlowInv hash preload t := by
  have proposing : ∀ k, ProposingSame (s.node k) (t.node k) := by
    intro k
    by_cases moved : k = j
    · subst k
      rw [node]
      exact (ProposingSame.recordAll _ _).trans (.advance _)
    · rw [others k moved]
      exact .refl _
  have handled : (t.node j).hist.handled = (s.node j).hist.handled ++ msgs := by
    rw [node, advance_handled, recordAll_handled]
  have flying : ∀ m ∈ msgs, m ∈ inflight s i j := by
    intro m member
    rw [flow]
    exact List.mem_append_left _ member
  have wf : ∀ m ∈ msgs, WellFormed (number i) m := fun m member =>
    h.wf i m (h.inflight_numbered (flying m member))
  have conserved := flow_conserved wf handled others flow same
  refine ⟨?_, ?_, ?_, ?_, ?_, ?_, ?_, ?_, ?_⟩
  · intro k
    rw [(proposing k).numbered]
    exact h.seqs k
  · intro k
    rw [(proposing k).numbered]
    exact h.wf k
  · intro k
    rw [(proposing k).numbered, (proposing k).nextSeq]
    exact h.next k
  · intro k l
    rw [(proposing k).numbered, conserved]
    exact h.flow k l
  · intro k l on
    rw [(proposing k).running] at on
    rw [(proposing k).numbered, conserved]
    exact h.kept k l on
  · intro k m member
    by_cases moved : k = j
    · subst k
      rw [handled, List.mem_append] at member
      rcases member with old | new
      · exact h.origin _ m old
      · exact ⟨i, (wf m new).proposer⟩
    · rw [others k moved] at member
      exact h.origin k m member
  · intro k
    by_cases moved : k = j
    · subst k
      rw [handled]
      exact h.distinct_arriving flow
    · rw [others k moved]
      exact h.distinct k
  · intro k
    by_cases moved : k = j
    · subst k
      rw [node]
      exact (h.recorded flying).advance
    · rw [others k moved]
      exact h.replica k
  · intro k
    by_cases moved : k = j
    · subst k
      rw [node]
      exact advance_drained _
    · rw [others k moved]
      exact h.drained k

theorem FlowInv.effect (h : FlowInv hash preload s) (effect : Effect hash s t) :
    FlowInv hash preload t := by
  cases effect with
  | quiet nodes flow kept => exact h.quiet nodes flow kept
  | number i msgs numbers wf others flow same => exact h.numbered numbers wf others flow same
  | deliver i j tsc msgs node others flow same => exact h.delivered node others flow same

theorem FlowInv.proposals (h : FlowInv hash preload s) (i j : NodeId) :
    ∀ m ∈ inflight s i j, m.type = .proposal := by
  intro m flying
  exact (h.wf i m (h.inflight_numbered flying)).type

theorem flow_reachable {s : Cluster} (reached : (clusterSystem hash d).Reachable s) :
    FlowInv hash d.preload s :=
  cluster_invariant (.initial hash d) (fun _ _ _ before holds fires =>
    holds.effect (effect_of_fires (control_reachable before) holds.proposals fires)) reached

/-- Every step of a run has one of the three effects. -/
theorem effect_of_step {s t : Cluster} {a : Action} (reached : (clusterSystem hash d).Reachable s)
    (stepped : (clusterSystem hash d).step s a = some t) : Effect hash s t :=
  effect_of_fires (control_reachable reached) (flow_reachable reached).proposals
    (fires_of_step stepped)

end BandleCxl.Invariant
