import BandleCxl.Invariant.Ring
import BandleCxl.Source.Cluster

/-!
A replica reads neither `running_` in its handlers nor the record of what it has handled, and of
a message only what a ring carries. So a replica with another flag and another record does the
same.
-/
namespace BandleCxl.Invariant
open Library Source Bandle

/-- The same replica with this `running_` and this record of what it has handled. -/
def recast (on : Bool) (handled : List BandleMessage) (n : Bandle) : Bandle :=
  { n with running := on, hist := { n.hist with handled := handled } }

variable {hash : Bytes → Nat} {tsc : Nat → Nat} {on : Bool} {handled : List BandleMessage}

theorem recast_self (n : Bandle) : recast n.running n.hist.handled n = n := rfl

/-! ### Execution -/

theorem completeRange_recast (seq count : Nat) (st : Bandle × Bool) :
    completeRange tsc seq count (st.map (recast on handled) id) =
      (completeRange tsc seq count st).map (recast on handled) id := by
  induction count generalizing seq st with
  | zero => rfl
  | succ count ih => exact ih (seq + 1) (completeEntry tsc seq st)

theorem collectReady_recast (n : Bandle) (seq budget : Nat) :
    (recast on handled n).collectReady hash seq budget = n.collectReady hash seq budget :=
  collectReady_congr fun _ _ _ => ⟨rfl, rfl⟩

theorem executeBatch_recast (budget : Nat) (st : Bandle × Bool) :
    executeBatch hash tsc budget (st.map (recast on handled) id) =
      (executeBatch hash tsc budget st).map (recast on handled) id := by
  have same : (recast on handled st.1).collectReady hash st.1.executeNext budget =
      st.1.collectReady hash st.1.executeNext budget := collectReady_recast ..
  rw [executeBatch_placed, executeBatch_placed]
  change placed (st.1.kv.applyOpsInOrder
      ((recast on handled st.1).collectReady hash st.1.executeNext budget).2)
    (st.1.executeNext + ((recast on handled st.1).collectReady hash st.1.executeNext budget).1)
    (completeRange tsc st.1.executeNext
      ((recast on handled st.1).collectReady hash st.1.executeNext budget).1
      (st.map (recast on handled) id)) = _
  rw [same, completeRange_recast]
  rfl

theorem advanceLoop_recast (fuel : Nat) (st : Bandle × Bool) :
    advanceLoop hash tsc fuel (st.map (recast on handled) id) =
      (advanceLoop hash tsc fuel st).map (recast on handled) id := by
  induction fuel generalizing st with
  | zero => rfl
  | succ fuel ih =>
    change (if ((recast on handled st.1).collectReady hash st.1.executeNext
      kExecuteBatchMax).1 = 0 then st.map (recast on handled) id else
        advanceLoop hash tsc fuel (executeBatch hash tsc kExecuteBatchMax
          (st.map (recast on handled) id))) =
      (if (st.1.collectReady hash st.1.executeNext kExecuteBatchMax).1 = 0 then st else
        advanceLoop hash tsc fuel (executeBatch hash tsc kExecuteBatchMax st)).map _ id
    rw [collectReady_recast, executeBatch_recast, ih]
    split <;> rfl

theorem advance_recast (n : Bandle) :
    (recast on handled n).advanceExecuteLocked hash tsc =
      recast on handled (n.advanceExecuteLocked hash tsc) := by
  have loop : advanceLoop hash tsc (kCompletionSlots + 1) (recast on handled n, false) =
      (advanceLoop hash tsc (kCompletionSlots + 1) (n, false)).map (recast on handled) id :=
    advanceLoop_recast _ (n, false)
  unfold advanceExecuteLocked
  rw [loop]
  dsimp only [Prod.map_fst, Prod.map_snd, id]
  split <;> rfl

/-! ### Handlers -/

theorem storeProposal_same (e : LogEntry) (payload : Mem) {sent got : BandleMessage}
    (same : SameMessage sent got) :
    storeProposal e payload sent.body = storeProposal e payload got.body := by
  simp only [storeProposal, same.op, same.proposer, same.clientReqId, same.startTsc, same.keyLen,
    same.valueLen, same.data]

theorem SameMessage.refl (m : BandleMessage) : SameMessage m m := by
  constructor <;> rfl

theorem SameMessage.symm {sent got : BandleMessage} (same : SameMessage sent got) :
    SameMessage got sent where
  type := same.type.symm
  seq := same.seq.symm
  round := same.round.symm
  sender := same.sender.symm
  proposer := same.proposer.symm
  clientReqId := same.clientReqId.symm
  startTsc := same.startTsc.symm
  value := same.value.symm
  promise := same.promise.symm
  op := same.op.symm
  keyLen := same.keyLen.symm
  valueLen := same.valueLen.symm
  data := by
    rw [same.keyLen, same.valueLen]
    exact same.data.symm

theorem recordProposal_recast (n : Bandle) {sent got : BandleMessage}
    (same : SameMessage sent got) :
    (recast on handled n).recordProposal sent =
      recast on (handled ++ [sent]) (n.recordProposal got) := by
  simp only [recordProposal, same.seq, storeProposal_same _ _ same]
  rfl

theorem decideLocked_recast (n : Bandle) (seq value : Nat) :
    decideLocked hash tsc (recast on handled n) seq value =
      recast on handled (decideLocked hash tsc n seq value) := by
  by_cases decided : (n.claimEntry seq).decided = true
  · have again : ((recast on handled n).claimEntry seq).decided = true := decided
    simp only [decideLocked, if_pos decided, if_pos again]
    rfl
  · have again : ¬((recast on handled n).claimEntry seq).decided = true := decided
    simp only [decideLocked, if_neg decided, if_neg again]
    exact advance_recast { n with log := (Function.update n.log (slotOf seq)
      { n.claimEntry seq with decided := true, decision := value }) }

theorem handleP1_recast (n : Bandle) {sent got : BandleMessage} (same : SameMessage sent got) :
    handleP1Locked hash tsc (recast on handled n) sent =
      recast on handled (handleP1Locked hash tsc n got) := by
  unfold handleP1Locked
  simp only [same.value, same.promise, same.sender, same.seq]
  by_cases ignored : sent.body.value ≠ 1 ∨ sent.body.promise = 0 ∨ sent.body.sender < 1 ∨
      sent.body.sender > n.cfg.clusterSize
  · rw [if_pos ignored]
    exact if_pos ignored
  · rw [if_neg ignored]
    refine (if_neg ignored).trans ?_
    by_cases quorum : popcount ((n.claimEntry sent.body.seq).p1Value1PromiseMask |||
        (1 <<< (sent.body.sender - 1))) ≥ n.cfg.quorum
    · rw [if_pos quorum]
      refine (if_pos quorum).trans ?_
      exact decideLocked_recast { n with log := (Function.update n.log (slotOf sent.body.seq)
        { n.claimEntry sent.body.seq with
          p1Value1PromiseMask := (n.claimEntry sent.body.seq).p1Value1PromiseMask |||
            (1 <<< (sent.body.sender - 1)) }) } sent.body.seq 1
    · rw [if_neg quorum]
      refine (if_neg quorum).trans ?_
      rfl

theorem handleDecide_recast (n : Bandle) {sent got : BandleMessage}
    (same : SameMessage sent got) :
    handleDecideLocked hash tsc (recast on handled n) sent =
      recast on handled (handleDecideLocked hash tsc n got) := by
  unfold handleDecideLocked
  simp only [same.value, same.seq]
  exact advance_recast { n with log := (Function.update n.log (slotOf sent.body.seq)
    (if (n.claimEntry sent.body.seq).decided then n.claimEntry sent.body.seq
      else { n.claimEntry sent.body.seq with decided := true, decision := sent.body.value })) }

theorem handleInChunk_recast (hash : Bytes → Nat) (tsc : Nat → Nat) (on : Bool)
    (handled : List BandleMessage) (st : Bandle × Bool) {sent got : BandleMessage}
    (same : SameMessage sent got) :
    ∃ after, handleInChunk hash tsc (st.map (recast on handled) id) sent =
      (handleInChunk hash tsc st got).map (recast on after) id := by
  unfold handleInChunk
  rw [same.type]
  cases sent.type with
  | proposal => exact ⟨_, congrArg (·, true) (recordProposal_recast st.1 same)⟩
  | p1 => exact ⟨_, congrArg (·, st.2) (handleP1_recast st.1 same)⟩
  | decide => exact ⟨_, congrArg (·, st.2) (handleDecide_recast st.1 same)⟩
  | p2 => exact ⟨_, rfl⟩

theorem foldl_recast (hash : Bytes → Nat) (tsc : Nat → Nat) (on : Bool)
    {sent got : List BandleMessage} (same : List.Forall₂ SameMessage sent got)
    (handled : List BandleMessage) (st : Bandle × Bool) :
    ∃ after, sent.foldl (handleInChunk hash tsc) (st.map (recast on handled) id) =
      (got.foldl (handleInChunk hash tsc) st).map (recast on after) id := by
  induction same generalizing st handled with
  | nil => exact ⟨handled, rfl⟩
  | cons first _ ih =>
    obtain ⟨after, stepped⟩ := handleInChunk_recast hash tsc on handled st first
    simp only [List.foldl_cons]
    rw [stepped]
    exact ih after _

/-- A chunk is handled as it was sent. -/
theorem handleChunk_recast (hash : Bytes → Nat) (tsc : Nat → Nat) (on : Bool) (n : Bandle)
    {sent got : List BandleMessage}
    (same : List.Forall₂ SameMessage sent got) (handled : List BandleMessage) :
    ∃ after, (recast on handled n).handleChunk hash tsc sent =
      recast on after (n.handleChunk hash tsc got) := by
  obtain ⟨after, folded⟩ :=
    foldl_recast hash tsc on same handled (n, false)
  refine ⟨after, ?_⟩
  unfold handleChunk
  change (let out := sent.foldl (handleInChunk hash tsc) ((n, false).map (recast on handled) id)
    if out.2 then out.1.advanceExecuteLocked hash tsc else out.1) = _
  rw [folded]
  dsimp only [Prod.map_fst, Prod.map_snd, id]
  split
  · exact advance_recast _
  · rfl

theorem handleProposal_recast (hash : Bytes → Nat) (tsc : Nat → Nat) (on : Bool)
    (handled : List BandleMessage) (n : Bandle) {sent got : BandleMessage}
    (same : SameMessage sent got) (advance : Bool) :
    (recast on handled n).handleProposalLocked hash tsc sent advance =
      recast on (handled ++ [sent]) (n.handleProposalLocked hash tsc got advance) := by
  unfold handleProposalLocked
  rw [recordProposal_recast n same]
  split
  · exact advance_recast _
  · rfl

theorem selfDeliver_recast (hash : Bytes → Nat) (tsc : Nat → Nat) (on : Bool) (n : Bandle)
    (chunk handled : List BandleMessage) :
    ∃ after, (chunk.foldl (fun n p => n.handleProposalLocked hash tsc p false)
        (recast on handled n)).advanceExecuteLocked hash tsc =
      recast on after ((chunk.foldl (fun n p => n.handleProposalLocked hash tsc p false)
        n).advanceExecuteLocked hash tsc) := by
  induction chunk generalizing n handled with
  | nil => exact ⟨handled, advance_recast n⟩
  | cons p rest ih =>
    simp only [List.foldl_cons]
    rw [handleProposal_recast hash tsc on handled n (.refl p)]
    exact ih _ _

/-! ### Submission -/

theorem buildProposals_recast (bufs : Nat → Mem) (reqs : List BorrowedRequest)
    (st : Bandle × List BandleMessage) :
    buildProposals bufs reqs (st.map (recast on handled) id) =
      (buildProposals bufs reqs st).map (recast on handled) id := by
  induction reqs generalizing st with
  | nil => rfl
  | cons q rest ih =>
    simp only [buildProposals]
    split
    · exact ih (st.1, st.2 ++ [buildProposal st.1.cfg.nodeId (bufs st.2.length) q])
    · exact ih ({ st.1 with acct := { st.1.acct with
        errorOps := st.1.acct.errorOps + 1, totalOps := st.1.acct.totalOps + 1 } }, st.2)

theorem numberChunk_recast (n : Bandle) (chunk : List BandleMessage) :
    numberChunk tsc (recast on handled n) chunk =
      (numberChunk tsc n chunk).map (recast on handled) id := by
  induction chunk generalizing n with
  | nil => rfl
  | cons p rest ih =>
    have next := ih (numberProposal tsc n p).1
    simp only [numberChunk]
    change (let others := numberChunk tsc (recast on handled (numberProposal tsc n p).1) rest
      (others.1, (numberProposal tsc n p).2 :: others.2)) = _
    rw [next]
    rfl

end BandleCxl.Invariant
