import BandleCxl.Invariant.Handling

/-!
Deferring execution. Two nodes match up to a number `hi` if they agree on the store,
`execute_next_`, the accounting (latencies apart) and every slot of a number from
`execute_next_` to `hi`; below `lo` the P1 votes of a slot may differ, which execution
does not look at. Matching nodes execute the same entries. A slot write for a number
that a pending execution does not reach can be done before or after it.
-/
namespace BandleCxl.Invariant
open Library Source Bandle

variable {hash : Bytes → Nat} {tsc tsc' : Nat → Nat}

/-! ### Accounting without clocks -/

/-- The accounting without the recorded latencies. -/
def untimed (a : Accounting) : Accounting := { a with readLatency := {}, writeLatency := {} }

theorem completePending_untimed (endTsc endTsc' : Nat) {e e' : LogEntry} {a a' : Accounting}
    (flag flag' : Bool) (id : e.clientReqId = e'.clientReqId) (seq : e.seq = e'.seq)
    (same : untimed a = untimed a') :
    untimed (completePending endTsc e (a, flag)).1 =
      untimed (completePending endTsc' e' (a', flag')).1 := by
  cases a
  cases a'
  simp only [untimed, Accounting.mk.injEq, true_and] at same
  obtain ⟨rfl, rfl, rfl, rfl, rfl, rfl, rfl, rfl, rfl, rfl⟩ := same
  simp only [completePending, id, seq]
  split_ifs <;> rfl

theorem completeOwn_untimed (tsc tsc' : Nat → Nat) (nodeId q : Nat) {e e' : LogEntry}
    {a a' : Accounting} (flag flag' : Bool) (decision : e.decision = e'.decision)
    (proposer : e.proposer = e'.proposer) (id : e.clientReqId = e'.clientReqId)
    (seq : e.seq = e'.seq) (same : untimed a = untimed a') :
    untimed (completeOwn tsc nodeId q e (a, flag)).1 =
      untimed (completeOwn tsc' nodeId q e' (a', flag')).1 := by
  unfold completeOwn
  rw [decision, proposer, id]
  split
  · exact completePending_untimed _ _ _ _ id seq same
  · exact same

/-! ### Matching nodes -/

/-- The entry without its P1 votes. -/
def voteless (e : LogEntry) : LogEntry := { e with p1Value1PromiseMask := 0 }

structure Matches (lo hi : Nat) (a b : Bandle) : Prop where
  cfg : b.cfg = a.cfg
  kv : b.kv = a.kv
  next : b.executeNext = a.executeNext
  acct : untimed b.acct = untimed a.acct
  lap : hi ≤ a.executeNext + kCompletionSlots
  window : ∀ q, a.executeNext ≤ q → q < hi →
    voteless (b.log (slotOf q)) = voteless (a.log (slotOf q)) ∧
    b.logPayloads (slotOf q) = a.logPayloads (slotOf q) ∧
    (lo ≤ q → b.log (slotOf q) = a.log (slotOf q))
  below : ∀ q, (a.log (slotOf q)).seq < hi
  below' : ∀ q, (b.log (slotOf q)).seq < hi

variable {lo hi : Nat} {a b c : Bandle}

theorem Matches.symm (h : Matches lo hi a b) : Matches lo hi b a where
  cfg := h.cfg.symm
  kv := h.kv.symm
  next := h.next.symm
  acct := h.acct.symm
  lap := by rw [h.next]; exact h.lap
  window q from_ upto := by
    rw [h.next] at from_
    obtain ⟨exec, payload, full⟩ := h.window q from_ upto
    exact ⟨exec.symm, payload.symm, fun le => (full le).symm⟩
  below := h.below'
  below' := h.below

theorem Matches.trans (first : Matches lo hi a b) (second : Matches lo hi b c) :
    Matches lo hi a c where
  cfg := second.cfg.trans first.cfg
  kv := second.kv.trans first.kv
  next := second.next.trans first.next
  acct := second.acct.trans first.acct
  lap := first.lap
  window q from_ upto := by
    obtain ⟨exec, payload, full⟩ := first.window q from_ upto
    obtain ⟨exec', payload', full'⟩ := second.window q (by rw [first.next]; exact from_) upto
    exact ⟨exec'.trans exec, payload'.trans payload, fun le => (full' le).trans (full le)⟩
  below := first.below
  below' := second.below'

theorem Matches.refl (lap : hi ≤ a.executeNext + kCompletionSlots)
    (below : ∀ q, (a.log (slotOf q)).seq < hi) : Matches lo hi a a where
  cfg := rfl
  kv := rfl
  next := rfl
  acct := rfl
  lap := lap
  window _ _ _ := ⟨rfl, rfl, fun _ => rfl⟩
  below := below
  below' := below

/-- Where nothing below `lo` is left to execute, the votes agree too. -/
theorem Matches.full (h : Matches lo hi a b) (past : lo ≤ a.executeNext) : Matches 0 hi a b := by
  refine { h with window := ?_ }
  intro q from_ upto
  obtain ⟨exec, payload, full⟩ := h.window q from_ upto
  exact ⟨exec, payload, fun _ => full (by omega)⟩

/-- Histories are not compared. -/
theorem Matches.hist (h : Matches lo hi a b) (hist : History) :
    Matches lo hi a { b with hist := hist } :=
  ⟨h.cfg, h.kv, h.next, h.acct, h.lap, h.window, h.below, h.below'⟩

theorem Matches.executable (h : Matches lo hi a b) (ready : a.Executable a.executeNext) :
    b.Executable b.executeNext := by
  have inside := h.below a.executeNext
  rw [ready.1] at inside
  obtain ⟨exec, -, -⟩ := h.window a.executeNext (Nat.le_refl _) inside
  obtain ⟨seq, decided, known⟩ := ready
  have seqEq := congrArg LogEntry.seq exec
  have decidedEq := congrArg LogEntry.decided exec
  have decisionEq := congrArg LogEntry.decision exec
  have knownEq := congrArg LogEntry.proposalKnown exec
  simp only [voteless] at seqEq decidedEq decisionEq knownEq
  rw [h.next]
  exact ⟨by rw [seqEq, seq], by rw [decidedEq, decided],
    fun accepted => by rw [knownEq]; exact known (by rw [← decisionEq]; exact accepted)⟩

theorem Matches.executedAt (h : Matches lo hi a b) {q : Nat} (from_ : a.executeNext ≤ q)
    (upto : q < hi) : b.executedAt q = a.executedAt q := by
  obtain ⟨exec, payload, -⟩ := h.window q from_ upto
  have decision := congrArg LogEntry.decision exec
  have proposer := congrArg LogEntry.proposer exec
  have op := congrArg LogEntry.op exec
  have keyLen := congrArg LogEntry.keyLen exec
  have valueLen := congrArg LogEntry.valueLen exec
  simp only [voteless] at decision proposer op keyLen valueLen
  simp only [Bandle.executedAt, decision, proposer, op, keyLen, valueLen, payload]

/-- Matching nodes still match after they have both executed their next entry. -/
theorem Matches.executeEntry (hash : Bytes → Nat) (tsc tsc' : Nat → Nat) (h : Matches lo hi a b)
    (flag flag' : Bool) (ready : a.Executable a.executeNext) :
    Matches lo hi (Bandle.executeEntry hash tsc (a, flag)).1
      (Bandle.executeEntry hash tsc' (b, flag')).1 := by
  have inside := h.below a.executeNext
  rw [ready.1] at inside
  have nextA : (Bandle.executeEntry hash tsc (a, flag)).1.executeNext = a.executeNext + 1 := rfl
  have nextB : (Bandle.executeEntry hash tsc' (b, flag')).1.executeNext = b.executeNext + 1 := rfl
  have lap := h.lap
  obtain ⟨exec, -, -⟩ := h.window a.executeNext (Nat.le_refl _) inside
  refine ⟨h.cfg, ?_, ?_, ?_, ?_, ?_, ?_, ?_⟩
  · have storeA : (Bandle.executeEntry hash tsc (a, flag)).1.kv =
      a.kv.applyOpsInOrder (a.applyOpAt hash a.executeNext) := rfl
    have storeB : (Bandle.executeEntry hash tsc' (b, flag')).1.kv =
      b.kv.applyOpsInOrder (b.applyOpAt hash b.executeNext) := rfl
    rw [storeA, storeB, applyOpAt_record, applyOpAt_record, h.next, h.kv,
      h.executedAt (Nat.le_refl _) inside]
  · rw [nextA, nextB, h.next]
  · have acctA : (Bandle.executeEntry hash tsc (a, flag)).1.acct = (completeOwn tsc a.cfg.nodeId
      a.executeNext (a.log (slotOf a.executeNext)) (a.acct, flag)).1 := rfl
    have acctB : (Bandle.executeEntry hash tsc' (b, flag')).1.acct = (completeOwn tsc' b.cfg.nodeId
      b.executeNext (b.log (slotOf b.executeNext)) (b.acct, flag')).1 := rfl
    have decision := congrArg LogEntry.decision exec
    have proposer := congrArg LogEntry.proposer exec
    have client := congrArg LogEntry.clientReqId exec
    have seq := congrArg LogEntry.seq exec
    simp only [voteless] at decision proposer client seq
    rw [acctA, acctB, h.cfg, h.next]
    exact completeOwn_untimed tsc' tsc _ _ flag' flag decision proposer client seq h.acct
  · rw [nextA]
    omega
  · intro q from_ upto
    rw [nextA] at from_
    have logA := executeEntry_log_lap hash tsc a flag (q := q) (by omega) (by omega)
    have logB := executeEntry_log_lap hash tsc' b flag' (q := q)
      (by rw [h.next]; omega) (by rw [h.next]; omega)
    rw [logA, logB]
    exact h.window q (by omega) upto
  · intro q
    by_cases here : slotOf q = slotOf a.executeNext
    · rw [here, executeEntry_log_self]
      exact Nat.lt_of_le_of_lt (Nat.zero_le _) inside
    · rw [executeEntry_log_other a flag here]
      exact h.below q
  · intro q
    by_cases here : slotOf q = slotOf b.executeNext
    · rw [here, executeEntry_log_self]
      exact Nat.lt_of_le_of_lt (Nat.zero_le _) inside
    · rw [executeEntry_log_other b flag' here]
      exact h.below' q

/-- Lockstep: a run of one node is matched by a run of the other. -/
theorem Matches.run (tsc' : Nat → Nat) {st st' : Bandle × Bool} (run : ExecRun hash tsc st st')
    {b : Bandle} (flag : Bool) (h : Matches lo hi st.1 b) :
    ∃ out, ExecRun hash tsc' (b, flag) out ∧ Matches lo hi st'.1 out.1 := by
  induction run generalizing b flag with
  | refl st => exact ⟨(b, flag), .refl _, h⟩
  | @step st st' ready rest ih =>
    have both := h.executeEntry hash tsc tsc' st.2 flag ready
    obtain ⟨out, matched, ends⟩ := ih (Bandle.executeEntry hash tsc' (b, flag)).2 both
    exact ⟨out, .step (h.executable ready) matched, ends⟩

/-- Execution is deterministic, so two runs that get stuck end alike. -/
theorem ExecRun.unique {st x y : Bandle × Bool} (first : ExecRun hash tsc st x)
    (second : ExecRun hash tsc st y) (stuckX : ¬ x.1.Executable x.1.executeNext)
    (stuckY : ¬ y.1.Executable y.1.executeNext) : x = y := by
  induction first with
  | refl st =>
    cases second with
    | refl => rfl
    | step ready rest => exact absurd ready stuckX
  | step ready rest ih =>
    cases second with
    | refl => exact absurd ready stuckY
    | step _ rest' => exact ih rest' stuckX

/-- A drained node has nothing to execute. -/
theorem advance_of_drained {n : Bandle} (drained : ¬ n.Executable n.executeNext) :
    n.advanceExecuteLocked hash tsc = n := by
  obtain ⟨out, run, stuck, eq⟩ := advance_spec hash tsc n
  have same := ExecRun.unique run (.refl _) stuck drained
  rw [eq, same]
  rfl

theorem Matches.advance (hash : Bytes → Nat) (tsc tsc' : Nat → Nat) (h : Matches lo hi a b) :
    Matches lo hi (a.advanceExecuteLocked hash tsc) (b.advanceExecuteLocked hash tsc') := by
  obtain ⟨outA, runA, stuckA, eqA⟩ := advance_spec hash tsc a
  obtain ⟨outB, runB, stuckB, eqB⟩ := advance_spec hash tsc' b
  obtain ⟨out, run, ends⟩ := Matches.run tsc' runA false h
  have stuck : ¬ out.1.Executable out.1.executeNext := fun ready => stuckA (ends.symm.executable ready)
  rw [ExecRun.unique run runB stuck stuckB] at ends
  rw [eqA, eqB]
  exact ((ends.hist _).symm.hist _).symm

/-! ### Slot writes -/

theorem writeMessage_below {n : Bandle} {m : BandleMessage} (below : ∀ q, (n.log (slotOf q)).seq < hi)
    (inside : m.body.seq < hi) (q : Nat) : ((writeMessage n m).log (slotOf q)).seq < hi := by
  by_cases here : slotOf q = slotOf m.body.seq
  · cases touched : touches n.cfg m with
    | true =>
      rw [here, (writeMessage_self touched).1, messageEntry_seq, claimEntry_seq]
      exact inside
    | false =>
      rw [writeMessage_untouched touched]
      exact below q
  · rw [(writeMessage_other n m here).1]
    exact below q

/-- The same message, for a number that neither node has executed. -/
theorem Matches.write {m : BandleMessage} (h : Matches 0 hi a b) (from_ : a.executeNext ≤ m.body.seq)
    (inside : m.body.seq < hi) : Matches 0 hi (writeMessage a m) (writeMessage b m) := by
  have lap := h.lap
  obtain ⟨-, payload, full⟩ := h.window m.body.seq from_ inside
  have log := full (Nat.zero_le _)
  refine ⟨by simp [h.cfg], by simp [h.kv], by simp [h.next], by simp [h.acct], by simpa using lap,
    ?_, writeMessage_below h.below inside, writeMessage_below h.below' inside⟩
  intro q after upto
  rw [writeMessage_next] at after
  by_cases here : slotOf q = slotOf m.body.seq
  · cases touched : touches a.cfg m with
    | true =>
      have touched' : touches b.cfg m = true := by rw [h.cfg, touched]
      have claimed : b.claimEntry m.body.seq = a.claimEntry m.body.seq := by
        simp only [claimEntry, log]
      have entry : (writeMessage b m).log (slotOf m.body.seq) =
          (writeMessage a m).log (slotOf m.body.seq) := by
        rw [(writeMessage_self touched).1, (writeMessage_self touched').1, claimed, payload, h.cfg]
      have bytes : (writeMessage b m).logPayloads (slotOf m.body.seq) =
          (writeMessage a m).logPayloads (slotOf m.body.seq) := by
        rw [(writeMessage_self touched).2, (writeMessage_self touched').2, claimed, payload, h.cfg]
      rw [here, entry, bytes]
      exact ⟨rfl, rfl, fun _ => rfl⟩
    | false =>
      have untouched' : touches b.cfg m = false := by rw [h.cfg, touched]
      rw [writeMessage_untouched touched, writeMessage_untouched untouched']
      exact h.window q after upto
  · obtain ⟨logA, bytesA⟩ := writeMessage_other a m here
    obtain ⟨logB, bytesB⟩ := writeMessage_other b m here
    rw [logA, bytesA, logB, bytesB]
    exact h.window q after upto

/-- A message for a number that is already executed leaves a stale entry, which is
in the slot of no number of the window. -/
theorem Matches.stale {m : BandleMessage} (lap : hi ≤ a.executeNext + kCompletionSlots)
    (below : ∀ q, (a.log (slotOf q)).seq < hi) (old : m.body.seq < a.executeNext)
    (recent : hi ≤ m.body.seq + kCompletionSlots) (inside : m.body.seq < hi) :
    Matches 0 hi (writeMessage a m) a := by
  refine ⟨by simp, by simp, by simp, by simp, by simpa using lap, ?_,
    writeMessage_below below inside, below⟩
  intro q after upto
  rw [writeMessage_next] at after
  have other : slotOf q ≠ slotOf m.body.seq := (slotOf_ne (by omega) (by omega)).symm
  obtain ⟨log, bytes⟩ := writeMessage_other a m other
  rw [log, bytes]
  exact ⟨rfl, rfl, fun _ => rfl⟩

/-- Storing a message over an accepted entry whose proposal is known adds at most a
vote. -/
theorem messageEntry_accepted (quorum : Nat) (m : BandleMessage) {e : LogEntry} (payload : Mem)
    (known : e.proposalKnown = true) (decided : e.decided = true) (accepted : e.decision = 1) :
    voteless (messageEntry quorum m e payload).1 = voteless e ∧
      (messageEntry quorum m e payload).2 = payload := by
  unfold messageEntry
  split
  · have same : { e with decided := true, decision := 1 } = e := by
      rw [← decided, ← accepted]
    simp only [storeProposal, if_pos known, same, and_self]
  · have idle : completesQuorum quorum m e = false := by simp [completesQuorum, decided]
    simp only [idle, Bool.false_eq_true, if_false, voted, voteless, and_self]
  · simp only [decided, if_true, and_self]
  · exact ⟨rfl, rfl⟩

/-- A message for a number that is about to be executed changes nothing execution
looks at. -/
theorem Matches.covered {m : BandleMessage} (lap : hi ≤ a.executeNext + kCompletionSlots)
    (below : ∀ q, (a.log (slotOf q)).seq < hi) (from_ : a.executeNext ≤ m.body.seq)
    (early : m.body.seq < lo) (inside : m.body.seq < hi) (ready : a.Executable m.body.seq)
    (accepted : (a.log (slotOf m.body.seq)).decision = 1) :
    Matches lo hi (writeMessage a m) a := by
  refine ⟨by simp, by simp, by simp, by simp, by simpa using lap, ?_,
    writeMessage_below below inside, below⟩
  intro q after upto
  rw [writeMessage_next] at after
  by_cases here : slotOf q = slotOf m.body.seq
  · have same : q = m.body.seq := by
      by_contra other
      rcases Nat.lt_or_gt_of_ne other with lt | gt
      · exact slotOf_ne lt (by omega) here
      · exact slotOf_ne gt (by omega) here.symm
    subst q
    cases touched : touches a.cfg m with
    | true =>
      have claimed : a.claimEntry m.body.seq = a.log (slotOf m.body.seq) := by
        simp [claimEntry, ready.1]
      obtain ⟨entry, bytes⟩ := messageEntry_accepted a.cfg.quorum m
        (a.logPayloads (slotOf m.body.seq)) (ready.2.2 accepted) ready.2.1 accepted
      rw [(writeMessage_self touched).1, (writeMessage_self touched).2, claimed, entry, bytes]
      exact ⟨rfl, rfl, fun late => by omega⟩
    | false =>
      rw [writeMessage_untouched touched]
      exact ⟨rfl, rfl, fun _ => rfl⟩
  · obtain ⟨log, bytes⟩ := writeMessage_other a m here
    rw [log, bytes]
    exact ⟨rfl, rfl, fun _ => rfl⟩

/-! ### Writing before or after executing -/

theorem executeEntry_setSlot (n : Bandle) (flag : Bool) {k : Nat} (slot : LogEntry × Mem)
    (other : k ≠ slotOf n.executeNext) :
    executeEntry hash tsc (setSlot n k slot, flag) =
      (setSlot (executeEntry hash tsc (n, flag)).1 k slot, (executeEntry hash tsc (n, flag)).2) := by
  have log : (setSlot n k slot).log (slotOf n.executeNext) = n.log (slotOf n.executeNext) :=
    Function.update_of_ne other.symm _ _
  have bytes : (setSlot n k slot).logPayloads (slotOf n.executeNext) =
    n.logPayloads (slotOf n.executeNext) := Function.update_of_ne other.symm _ _
  have ops : (setSlot n k slot).applyOpAt hash n.executeNext = n.applyOpAt hash n.executeNext := by
    simp only [applyOpAt, log, bytes]
  have next : (setSlot n k slot).executeNext = n.executeNext := rfl
  simp only [executeEntry, completeEntry, executedAt, next, ops, log, bytes]
  simp only [setSlot, Function.update_comm other]

theorem executeEntry_write {n : Bandle} {m : BandleMessage} (flag : Bool)
    (other : slotOf m.body.seq ≠ slotOf n.executeNext) :
    executeEntry hash tsc (writeMessage n m, flag) =
      (writeMessage (executeEntry hash tsc (n, flag)).1 m, (executeEntry hash tsc (n, flag)).2) := by
  have cfg : (executeEntry hash tsc (n, flag)).1.cfg = n.cfg := rfl
  have payloads : (executeEntry hash tsc (n, flag)).1.logPayloads = n.logPayloads := rfl
  have claimed : claimEntry (executeEntry hash tsc (n, flag)).1 m.body.seq =
      n.claimEntry m.body.seq := by
    simp only [claimEntry, executeEntry_log_other n flag other]
  unfold writeMessage
  rw [cfg, claimed, payloads]
  split
  · exact executeEntry_setSlot n flag _ other
  · rfl

/-- A run does not mind a write to a slot it does not visit. -/
theorem ExecRun.write {st st' : Bandle × Bool} (run : ExecRun hash tsc st st') {m : BandleMessage}
    (after : st'.1.executeNext ≤ m.body.seq)
    (lap : m.body.seq < st.1.executeNext + kCompletionSlots) :
    ExecRun hash tsc (writeMessage st.1 m, st.2) (writeMessage st'.1 m, st'.2) := by
  induction run with
  | refl st => exact .refl _
  | @step st st' ready rest ih =>
    have next : (Bandle.executeEntry hash tsc st).1.executeNext = st.1.executeNext + 1 := rfl
    have le := (ExecRun.readyRun rest).le
    rw [next] at le
    have other : slotOf m.body.seq ≠ slotOf st.1.executeNext :=
      (slotOf_ne (by omega) (by omega)).symm
    refine .step ?_ ?_
    · rw [writeMessage_next]
      exact (executable_congr (writeMessage_other st.1 m other.symm).1).mpr ready
    · rw [executeEntry_write st.2 other]
      exact ih after (by rw [next]; omega)

/-- Executing some entries first does not change where execution ends. -/
theorem Matches.advance_run {st st' : Bandle × Bool} (run : ExecRun hash tsc st st')
    (lap : hi ≤ st'.1.executeNext + kCompletionSlots)
    (below : ∀ q, (st'.1.log (slotOf q)).seq < hi) (start : st.2 = false) :
    Matches 0 hi (st'.1.advanceExecuteLocked hash tsc) (st.1.advanceExecuteLocked hash tsc) := by
  obtain ⟨out, runEnd, stuckEnd, eqEnd⟩ := advance_spec hash tsc st'.1
  obtain ⟨out', runStart, stuckStart, eqStart⟩ := advance_spec hash tsc st.1
  have same : Matches 0 hi st'.1 st'.1 := .refl lap below
  obtain ⟨last, lastRun, ends⟩ := Matches.run tsc runEnd st'.2 same
  have whole := run.trans lastRun
  have from_ : st = (st.1, false) := Prod.ext rfl start
  rw [from_] at whole
  have stuck : ¬ last.1.Executable last.1.executeNext := fun ready =>
    stuckEnd (ends.symm.executable ready)
  rw [ExecRun.unique whole runStart stuck stuckStart] at ends
  rw [eqEnd, eqStart]
  exact ((ends.hist _).symm.hist _).symm

end BandleCxl.Invariant
