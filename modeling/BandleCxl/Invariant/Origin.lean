import BandleCxl.Invariant.Control

/-!
Where numbered proposals come from: each carries a request of its node's input, cut
to the payload slot, or is a no-op.
-/
namespace BandleCxl.Invariant
open Library Source Bandle

variable {hash : Bytes → Nat} {tsc : Nat → Nat} {d : Deployment} {s t : Cluster} {i : NodeId}

/-- Proposal `m` was built for request `r`. -/
def Carries (r : BorrowedRequest) (m : BandleMessage) : Prop :=
  ∃ nodeId old, m.body.op = r.op ∧
    m.body.keyLen = (buildProposal nodeId old r).body.keyLen ∧
    m.body.valueLen = (buildProposal nodeId old r).body.valueLen ∧
    m.body.data = (buildProposal nodeId old r).body.data

def validRequests (reqs : List BorrowedRequest) : List BorrowedRequest :=
  reqs.filter fun r => validOp r.op

theorem carries_proposalsOf (nodeId : Nat) (bufs : Nat → Mem) (k : Nat)
    (reqs : List BorrowedRequest) :
    List.Forall₂ Carries (validRequests reqs) (proposalsOf nodeId bufs k reqs) := by
  induction reqs generalizing k with
  | nil => exact .nil
  | cons r rest ih =>
    by_cases valid : validOp r.op = true
    · simp only [validRequests, List.filter_cons, valid, if_true, proposalsOf]
      exact .cons ⟨nodeId, bufs k, rfl, rfl, rfl, rfl⟩ (ih _)
    · simp only [validRequests, List.filter_cons, valid, Bool.false_eq_true, if_false, proposalsOf]
      exact ih k

/-- Numbering leaves the request of a proposal alone. -/
theorem carries_numberChunk (n : Bandle) {reqs : List BorrowedRequest}
    {chunk : List BandleMessage} (carried : List.Forall₂ Carries reqs chunk) :
    List.Forall₂ Carries reqs (numberChunk tsc n chunk).2 := by
  induction carried generalizing n with
  | nil => exact .nil
  | cons first _ ih => exact .cons first (ih _)

theorem unnumbered_nextChunk (cap : Nat) (rest : List BandleMessage) :
    Client.unnumbered (nextChunk cap rest) = rest := by
  unfold nextChunk
  split
  · next empty => simpa [Client.unnumbered] using empty
  · simp [Client.unnumbered]

/-! ### The invariant -/

/-- A no-op, or a proposal built for a request of the node's input. -/
def Proposed (d : Deployment) (i : NodeId) (m : BandleMessage) : Prop :=
  m.body.op = opN ∨ ∃ r ∈ (d.input i).flatten, validOp r.op = true ∧ Carries r m

structure Origin (d : Deployment) (i : NodeId) (n : Bandle) (pc : ClientPc)
    (input : List (List BorrowedRequest)) : Prop where
  input : input <:+ d.input i
  numbered : ∀ m ∈ n.hist.numbered, Proposed d i m
  unnumbered : ∀ m ∈ Client.unnumbered pc, Proposed d i m

def OriginInv (d : Deployment) : Cluster → Prop := EachNode (Origin d)

theorem proposed_proposalsOf {batch : List BorrowedRequest} (given : batch ∈ d.input i)
    (nodeId : Nat) (bufs : Nat → Mem) (k : Nat) :
    ∀ m ∈ proposalsOf nodeId bufs k batch, Proposed d i m := by
  intro m member
  obtain ⟨j, inside, found⟩ := List.getElem_of_mem member
  have carried := carries_proposalsOf nodeId bufs k batch
  have within : j < (validRequests batch).length := by rw [carried.length_eq]; exact inside
  have carries := (List.forall₂_iff_get.mp carried).2 j within inside
  simp only [List.get_eq_getElem, found] at carries
  have valid := List.mem_filter.mp (List.getElem_mem within)
  exact Or.inr ⟨_, List.mem_flatten.mpr ⟨batch, given, valid.1⟩, valid.2, carries⟩

theorem proposed_numberChunk (n : Bandle) {chunk : List BandleMessage}
    (proposed : ∀ m ∈ chunk, Proposed d i m) :
    ∀ m ∈ (numberChunk tsc n chunk).2, Proposed d i m := by
  induction chunk generalizing n with
  | nil => exact proposed
  | cons p rest ih =>
    intro m member
    rcases List.mem_cons.mp member with first | later
    · subst m
      exact proposed p (List.mem_cons_self ..)
    · exact ih _ (fun m' inside => proposed m' (List.mem_cons_of_mem p inside)) m later

theorem Origin.frame {n n' : Bandle} {pc pc' : ClientPc} {input : List (List BorrowedRequest)}
    (h : Origin d i n pc input) (numbered : n'.hist.numbered = n.hist.numbered)
    (unnumbered : Client.unnumbered pc' = Client.unnumbered pc) : Origin d i n' pc' input where
  input := h.input
  numbered := by rw [numbered]; exact h.numbered
  unnumbered := by rw [unnumbered]; exact h.unnumbered

theorem Origin.submit {n : Bandle} {batch : List BorrowedRequest}
    {later : List (List BorrowedRequest)} (h : Origin d i n .replay (batch :: later))
    (bufs : Nat → Mem) (cap : Nat) :
    Origin d i (buildProposals bufs batch (n, [])).1
      (nextChunk cap (buildProposals bufs batch (n, [])).2) later where
  input := (List.suffix_cons batch later).trans h.input
  numbered := by
    rw [buildProposals_eq]
    exact h.numbered
  unnumbered := by
    have given := h.input.subset (List.mem_cons_self ..)
    rw [unnumbered_nextChunk, buildProposals_eq]
    exact proposed_proposalsOf given _ _ _

theorem Origin.admission {n : Bandle} {cap : Nat} {chunk rest : List BandleMessage}
    {input : List (List BorrowedRequest)} (h : Origin d i n (.admission cap chunk rest) input) :
    Origin d i (numberChunk tsc n chunk).1 (.broadcast cap (numberChunk tsc n chunk).2 rest)
      input where
  input := h.input
  numbered := by
    rw [(Numbers.chunk n chunk).numbered]
    intro m member
    rcases List.mem_append.mp member with old | new
    · exact h.numbered m old
    · exact proposed_numberChunk n
        (fun p inside => h.unnumbered p (List.mem_append_left rest inside)) m new
  unnumbered m member := h.unnumbered m (List.mem_append_right chunk member)

theorem OriginInv.step {a : Action} (h : OriginInv d s) (control : ControlInv d s)
    (fires : Fires hash s a t) : OriginInv d t := by
  have node := h
  cases fires with
  | @submit i bufs batch later pc todo =>
    have old := node i
    rw [pc, todo] at old
    exact EachNode.submit h (old.submit bufs _)
  | @admission i tsc cap chunk rest pc fits =>
    have old := node i
    rw [pc] at old
    exact EachNode.set h old.admission
  | @ready i cap chunk rest pc running room =>
    exact EachNode.setClient h ((node i).frame rfl (by rw [pc]; rfl))
  | @abandon i cap chunk rest pc stopped =>
    exact EachNode.setClient h ((node i).frame rfl (by rw [pc]; rfl))
  | @publish i cap chunk rest peer peers pc =>
    exact EachNode.setClient (s := s.setRing i peer (s.ring i peer ++ chunk)) h
      ((node i).frame rfl (by rw [pc]; rfl))
  | @published i cap chunk rest pc =>
    exact EachNode.setClient h ((node i).frame rfl (by rw [pc]; rfl))
  | @selfDeliver i tsc cap chunk rest pc =>
    rw [foldl_handleProposal]
    refine EachNode.set h ((node i).frame ?_ ?_)
    · exact ((ProposingSame.recordAll _ _).trans (.advance _)).numbered
    · rw [unnumbered_nextChunk, pc]
      rfl
  | @markInputDone i pc todo => exact EachNode.set h ((node i).frame rfl (by rw [pc]; rfl))
  | @pendingDone i pc done =>
    exact EachNode.setClient (k := i) (c := .barrier) h ((node i).frame rfl (by rw [pc]; rfl))
  | @stop i pc finished => exact EachNode.set h ((node i).frame rfl (by rw [pc]; rfl))
  | @join i pc exited receivers =>
    exact EachNode.setClient h ((node i).frame rfl (by rw [pc]; rfl))
  | drain peer alive idle single some published => exact h
  | @handle j src tsc batch =>
    exact EachNode.setNode h ((node j).frame (ProposingSame.chunk _ _).numbered rfl)
  | recvExit peer stopped idle => exact h
  | noopCheck pc running due => exact h
  | noopRead pc => exact h
  | @noopNumber i now p pc =>
    have shape := (control.node i).proposer
    rw [pc] at shape
    have filled : p = (s.node i).noopProposal := shape
    refine EachNode.setNode h ⟨(node i).input, fun m member => ?_, (node i).unnumbered⟩
    rcases List.mem_append.mp member with old | new
    · exact (node i).numbered m old
    · rw [List.mem_singleton.mp new, filled]
      exact Or.inl rfl
  | noopSend pc running room => exact h
  | noopSent pc => exact h
  | noopDrop pc stopped => exact h
  | @noopDeliver i tsc p pc =>
    exact EachNode.setNode h ((node i).frame (ProposingSame.proposal _ _ _).numbered rfl)
  | proposerExit pc stopped => exact h

theorem OriginInv.initial (d : Deployment) : OriginInv d (Cluster.initial d) := fun _ =>
  ⟨List.suffix_rfl, List.forall_mem_nil _, List.forall_mem_nil _⟩

theorem origin_reachable {s : Cluster} (reached : (clusterSystem hash d).Reachable s) :
    OriginInv d s :=
  cluster_invariant (.initial d)
    (fun _ _ _ before holds fires => holds.step (control_reachable before) fires) reached

end BandleCxl.Invariant
