import BandleCxl.Invariant.Replica

/-!
What a call of `advance_execute_locked` does to a log with arbitrary content,
stale entries included. The entries of one run lie in different slots, because
each executed entry frees a decided slot and there are only `kCompletionSlots` of
them. So what is executed, applied and completed can be read off the log as it was
when the call began.
-/
namespace BandleCxl.Invariant
open Library Source Bandle

variable {hash : Bytes → Nat} {tsc : Nat → Nat}

/-! ### One executed entry -/

theorem executeEntry_log_other (n : Bandle) (flag : Bool) {k : Nat}
    (other : k ≠ slotOf n.executeNext) :
    (executeEntry hash tsc (n, flag)).1.log k = n.log k := by
  simp only [executeEntry, completeEntry, Function.update_of_ne other]

theorem executeEntry_log_self (n : Bandle) (flag : Bool) :
    (executeEntry hash tsc (n, flag)).1.log (slotOf n.executeNext) = resetLogEntry 0 := by
  simp only [executeEntry, completeEntry, Function.update_self]

/-- Numbers of the same lap as the executed one keep their entries. -/
theorem executeEntry_log_lap (hash : Bytes → Nat) (tsc : Nat → Nat) (n : Bandle) (flag : Bool)
    {q : Nat} (after : n.executeNext < q) (lap : q < n.executeNext + kCompletionSlots) :
    (executeEntry hash tsc (n, flag)).1.log (slotOf q) = n.log (slotOf q) :=
  executeEntry_log_other n flag (slotOf_ne after lap).symm

/-- The entry of `q` is an accepted request of this node, its `pending_` slot is `k`
and that slot still belongs to it. -/
def OwnEntry (n : Bandle) (q k : Nat) : Prop :=
  (n.log (slotOf q)).decision = 1 ∧ (n.log (slotOf q)).proposer = n.cfg.nodeId ∧
    (n.log (slotOf q)).clientReqId ≠ 0 ∧
    slotOf ((n.log (slotOf q)).clientReqId &&& (2 ^ 56 - 1)) = k ∧
    (n.acct.pending k).id = (n.log (slotOf q)).clientReqId

instance (n : Bandle) (q k : Nat) : Decidable (OwnEntry n q k) :=
  inferInstanceAs (Decidable (_ ∧ _ ∧ _ ∧ _ ∧ _))

theorem completePending_pending (endTsc : Nat) (e : LogEntry) (st : Accounting × Bool) (k : Nat) :
    (completePending endTsc e st).1.pending k =
      if slotOf (e.clientReqId &&& (2 ^ 56 - 1)) = k ∧ (st.1.pending k).id = e.clientReqId then
        { st.1.pending k with done := true }
      else st.1.pending k := by
  unfold completePending
  dsimp only
  generalize slotOf (e.clientReqId &&& (2 ^ 56 - 1)) = slot
  by_cases here : slot = k
  · subst k
    by_cases same : (st.1.pending slot).id = e.clientReqId
    · cases flag : (st.1.pending slot).done with
      | true =>
        -- already done: the branch is not taken and the flag stays
        simp only [same, Bool.true_eq_false, and_false, if_false, and_self, if_true]
        rw [← flag, ← same]
      | false =>
        simp only [same, and_self, if_true]
        split_ifs <;> simp only [Function.update_self]
    · simp only [same, false_and, and_false, if_false]
  · have there : k ≠ slot := fun eq => here eq.symm
    simp only [here, false_and, if_false]
    split_ifs <;> simp only [Function.update_of_ne there]

/-- Executing an entry marks the request it belongs to as done and no other. -/
theorem executeEntry_pending (n : Bandle) (flag : Bool) (k : Nat) :
    (executeEntry hash tsc (n, flag)).1.acct.pending k =
      if OwnEntry n n.executeNext k then { n.acct.pending k with done := true }
      else n.acct.pending k := by
  have outcome : (executeEntry hash tsc (n, flag)).1.acct =
    (completeOwn tsc n.cfg.nodeId n.executeNext (n.log (slotOf n.executeNext))
      (n.acct, flag)).1 := rfl
  rw [outcome]
  unfold completeOwn
  split
  · next own =>
    rw [completePending_pending]
    by_cases mine : OwnEntry n n.executeNext k
    · rw [if_pos mine, if_pos ⟨mine.2.2.2.1, mine.2.2.2.2⟩]
    · rw [if_neg mine, if_neg]
      rintro ⟨slot, id⟩
      exact mine ⟨own.1, own.2.1, own.2.2, slot, id⟩
  · next other =>
    rw [if_neg]
    rintro ⟨accepted, proposer, client, -⟩
    exact other ⟨accepted, proposer, client⟩

/-! ### The whole run -/

/-- `n'` is `n` after the ready entries up to its `execute_next_`, all read in `n`. -/
structure ReadyRun (hash : Bytes → Nat) (n n' : Bandle) : Prop where
  le : n.executeNext ≤ n'.executeNext
  lap : n'.executeNext ≤ n.executeNext + kCompletionSlots
  ready : ∀ q, n.executeNext ≤ q → q < n'.executeNext → n.Executable q
  cfg : n'.cfg = n.cfg
  payloads : n'.logPayloads = n.logPayloads
  store : n'.kv = (List.range' n.executeNext (n'.executeNext - n.executeNext)).foldl
    (fun kv q => applyRecord hash kv (n.executedAt q)) n.kv
  reset : ∀ q, n.executeNext ≤ q → q < n'.executeNext → n'.log (slotOf q) = resetLogEntry 0
  kept : ∀ k, (∀ q, n.executeNext ≤ q → q < n'.executeNext → slotOf q ≠ k) → n'.log k = n.log k
  pending : ∀ k, ∃ done, n'.acct.pending k = { n.acct.pending k with done := done } ∧
    (done = true ↔ (n.acct.pending k).done = true ∨
      ∃ q, n.executeNext ≤ q ∧ q < n'.executeNext ∧ OwnEntry n q k)
  executed : n'.hist.executed = n.hist.executed ++
    (List.range' n.executeNext (n'.executeNext - n.executeNext)).map n.executedAt

theorem ReadyRun.refl (hash : Bytes → Nat) (n : Bandle) : ReadyRun hash n n where
  le := Nat.le_refl _
  lap := Nat.le_add_right _ _
  ready q lo hi := by omega
  cfg := rfl
  payloads := rfl
  store := by simp
  reset q lo hi := by omega
  kept k _ := rfl
  pending k := by
    refine ⟨(n.acct.pending k).done, rfl, ?_⟩
    constructor
    · exact Or.inl
    · rintro (done | ⟨q, lo, hi, -⟩)
      · exact done
      · omega
  executed := by simp

/-- The entries of a run that starts one later, read before the first was executed. -/
theorem ownEntry_executeEntry (n : Bandle) (flag : Bool) {q k : Nat} (after : n.executeNext < q)
    (lap : q < n.executeNext + kCompletionSlots) :
    OwnEntry (executeEntry hash tsc (n, flag)).1 q k ↔ OwnEntry n q k := by
  have log := executeEntry_log_lap hash tsc n flag after lap
  have cfg : (executeEntry hash tsc (n, flag)).1.cfg = n.cfg := rfl
  have id : ((executeEntry hash tsc (n, flag)).1.acct.pending k).id = (n.acct.pending k).id := by
    rw [executeEntry_pending]
    split <;> rfl
  simp only [OwnEntry, log, cfg, id]

/-- The requests that a run completes, the first entry included. -/
theorem ReadyRun.pending_cons {n n' : Bandle} {flag : Bool}
    (rest : ReadyRun hash (executeEntry hash tsc (n, flag)).1 n')
    (lap : n'.executeNext ≤ n.executeNext + kCompletionSlots) (k : Nat) :
    ∃ done, n'.acct.pending k = { n.acct.pending k with done := done } ∧
      (done = true ↔ (n.acct.pending k).done = true ∨
        ∃ q, n.executeNext ≤ q ∧ q < n'.executeNext ∧ OwnEntry n q k) := by
  have le : n.executeNext + 1 ≤ n'.executeNext := rest.le
  obtain ⟨done, fields, iff⟩ := rest.pending k
  have later : ∀ q, n.executeNext + 1 ≤ q → q < n'.executeNext →
      (OwnEntry (executeEntry hash tsc (n, flag)).1 q k ↔ OwnEntry n q k) :=
    fun q lo hi => ownEntry_executeEntry n flag (by omega) (by omega)
  rw [executeEntry_pending] at fields iff
  refine ⟨done, ?_, ?_⟩
  · rw [fields]
    split <;> rfl
  · rw [iff]
    constructor
    · rintro (flagged | ⟨q, lo, hi, own⟩)
      · split at flagged
        · next own => exact Or.inr ⟨n.executeNext, Nat.le_refl _, by omega, own⟩
        · exact Or.inl flagged
      · exact Or.inr ⟨q, Nat.le_of_succ_le lo, hi, (later q lo hi).mp own⟩
    · rintro (flagged | ⟨q, lo, hi, own⟩)
      · left
        split
        · rfl
        · exact flagged
      · rcases Nat.eq_or_lt_of_le lo with first | after
        · left
          rw [first, if_pos own]
        · exact Or.inr ⟨q, after, hi, (later q after hi).mpr own⟩

theorem ReadyRun.cons {n n' : Bandle} {flag : Bool} (ready : n.Executable n.executeNext)
    (bound : n'.executeNext ≤ n.executeNext + kCompletionSlots)
    (rest : ReadyRun hash (executeEntry hash tsc (n, flag)).1 n') : ReadyRun hash n n' := by
  have next : (executeEntry hash tsc (n, flag)).1.executeNext = n.executeNext + 1 := rfl
  have le := rest.le
  have restLap := rest.lap
  have lap : kCompletionSlots = 65536 := rfl
  rw [next] at le restLap
  have log : ∀ q, n.executeNext < q → q < n'.executeNext →
      (executeEntry hash tsc (n, flag)).1.log (slotOf q) = n.log (slotOf q) := by
    intro q after before
    exact executeEntry_log_lap hash tsc n flag after (by omega)
  have records : ∀ q ∈ List.range' (n.executeNext + 1) (n'.executeNext - (n.executeNext + 1)),
      (executeEntry hash tsc (n, flag)).1.executedAt q = n.executedAt q := by
    intro q member
    rw [List.mem_range'_1] at member
    exact executedAt_congr (log q (by omega) (by omega)) rfl
  have count : n'.executeNext - n.executeNext = n'.executeNext - (n.executeNext + 1) + 1 := by
    omega
  refine ⟨by omega, bound, ?_, rest.cfg, rest.payloads, ?_, ?_, ?_, ?_, ?_⟩
  · intro q lo hi
    rcases Nat.eq_or_lt_of_le lo with first | later
    · rw [← first]
      exact ready
    · have here := rest.ready q (by omega) hi
      exact (executable_congr (log q later hi)).mp here
  · have first : (executeEntry hash tsc (n, flag)).1.kv =
        applyRecord hash n.kv (n.executedAt n.executeNext) := by
      rw [← applyOpAt_record]
      rfl
    rw [rest.store, next, first, count, List.range'_succ, List.foldl_cons]
    apply List.foldl_ext
    intro kv q member
    rw [records q member]
  · intro q lo hi
    rcases Nat.eq_or_lt_of_le lo with first | later
    · rw [← first]
      -- no later entry of the run uses the slot again
      refine (rest.kept (slotOf n.executeNext) ?_).trans (executeEntry_log_self n flag)
      intro q' lo' hi'
      rw [next] at lo'
      exact (slotOf_ne (by omega) (by omega)).symm
    · exact rest.reset q (by omega) hi
  · intro k outside
    rw [rest.kept k fun q lo hi => outside q (by omega) hi]
    exact executeEntry_log_other n flag fun here => outside n.executeNext (Nat.le_refl _) (by omega)
      here.symm
  · exact rest.pending_cons (by omega)
  · have first : (executeEntry hash tsc (n, flag)).1.hist.executed =
      n.hist.executed ++ [n.executedAt n.executeNext] := rfl
    rw [rest.executed, next, first, count, List.range'_succ, List.map_cons, List.append_assoc,
      List.map_congr_left records]
    rfl

theorem ExecRun.readyRun {st st' : Bandle × Bool} (run : ExecRun hash tsc st st') :
    ReadyRun hash st.1 st'.1 := by
  induction run with
  | refl st => exact .refl hash st.1
  | @step st st' ready rest ih =>
    -- the run as a whole is no longer than the number of decided slots
    have freed := (ExecRun.step ready rest).decided
    have slots := decidedSlots_le st.1
    exact .cons ready (by omega) ih

/-- The call executes a ready run and stops at the first number that is not ready. -/
theorem advance_readyRun (hash : Bytes → Nat) (tsc : Nat → Nat) (n : Bandle) :
    ReadyRun hash n (n.advanceExecuteLocked hash tsc) := by
  obtain ⟨out, run, -, eq⟩ := advance_spec hash tsc n
  have spec := ExecRun.readyRun run
  rw [eq]
  exact ⟨spec.le, spec.lap, spec.ready, spec.cfg, spec.payloads, spec.store, spec.reset, spec.kept,
    spec.pending, spec.executed⟩

/-- Where the call stops, the log had no ready entry to begin with. -/
theorem ReadyRun.stuck {n n' : Bandle} (run : ReadyRun hash n n')
    (drained : ¬ n'.Executable n'.executeNext) : ¬ n.Executable n'.executeNext := by
  intro ready
  have le := run.le
  by_cases shared : ∃ q, n.executeNext ≤ q ∧ q < n'.executeNext ∧
      slotOf q = slotOf n'.executeNext
  · -- a full lap: the slot held the number that was executed
    obtain ⟨q, lo, hi, slot⟩ := shared
    have first := (run.ready q lo hi).1
    rw [slot, ready.1] at first
    omega
  · refine drained ((executable_congr (run.kept _ ?_)).mpr ready)
    intro q lo hi slot
    exact shared ⟨q, lo, hi, slot⟩

/-- After a run every slot is reset or as it was. -/
theorem ReadyRun.log_cases {n n' : Bandle} (run : ReadyRun hash n n') (k : Nat) :
    n'.log k = resetLogEntry 0 ∨ n'.log k = n.log k := by
  by_cases visited : ∃ q, n.executeNext ≤ q ∧ q < n'.executeNext ∧ slotOf q = k
  · obtain ⟨q, lo, hi, slot⟩ := visited
    rw [← slot]
    exact Or.inl (run.reset q lo hi)
  · refine Or.inr (run.kept k ?_)
    intro q lo hi slot
    exact visited ⟨q, lo, hi, slot⟩

end BandleCxl.Invariant
