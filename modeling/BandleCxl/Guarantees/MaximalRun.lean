import BandleCxl.Invariant.ReadyRun

/-!
`advance_execute_locked` executes exactly the maximal ready run, for every content
of the log: entries of other numbers, runs longer than one batch of
`kExecuteBatchMax` and runs that wrap around the end of the slot array. The call
moves `execute_next_` by at most `kCompletionSlots`, so no sum it forms leaves 64
bits as long as `execute_next_` is below `2 ^ 64 - 65536`.
-/
namespace BandleCxl.Guarantees
open Library Source Bandle Invariant

variable {hash : Bytes → Nat} {tsc : Nat → Nat}

/-- Once the fuel exceeds the number of decided slots it no longer matters: the loop
has left through its `return`. -/
theorem advanceLoop_fuel (fuel extra : Nat) (st : Bandle × Bool)
    (enough : st.1.decidedSlots < fuel) :
    advanceLoop hash tsc (fuel + extra) st = advanceLoop hash tsc fuel st := by
  induction fuel generalizing st with
  | zero => omega
  | succ fuel ih =>
    rw [Nat.succ_add]
    simp only [advanceLoop]
    split
    · rfl
    · next some =>
      apply ih
      have batch : ExecRun hash tsc st (executeBatch hash tsc kExecuteBatchMax st) :=
        batch_run kExecuteBatchMax st (by decide)
      have freed := batch.decided
      have advanced : (executeBatch hash tsc kExecuteBatchMax st).1.executeNext =
        st.1.executeNext + (st.1.collectReady hash st.1.executeNext kExecuteBatchMax).1 := rfl
      have fewer : (executeBatch hash tsc kExecuteBatchMax st).1.decidedSlots < fuel := by omega
      exact fewer

/-- The call terminates and moves `execute_next_` to the least number that has no
ready entry; it applies the accepted writes before that number one by one in order,
resets their slots and no other, and marks exactly their requests as done. -/
theorem executes_maximal_run (hash : Bytes → Nat) (tsc : Nat → Nat) (n : Bandle) :
    (∀ extra, advanceLoop hash tsc (kCompletionSlots + 1 + extra) (n, false) =
      advanceLoop hash tsc (kCompletionSlots + 1) (n, false)) ∧
    IsLeast {m | n.executeNext ≤ m ∧ ¬ n.Executable m}
      (n.advanceExecuteLocked hash tsc).executeNext ∧
    (n.advanceExecuteLocked hash tsc).executeNext ≤ n.executeNext + kCompletionSlots ∧
    (n.advanceExecuteLocked hash tsc).kv =
      (List.range' n.executeNext
        ((n.advanceExecuteLocked hash tsc).executeNext - n.executeNext)).foldl
        (fun kv q => applyRecord hash kv (n.executedAt q)) n.kv ∧
    (∀ q, n.executeNext ≤ q → q < (n.advanceExecuteLocked hash tsc).executeNext →
      (n.advanceExecuteLocked hash tsc).log (slotOf q) = resetLogEntry 0) ∧
    (∀ k, (∀ q, n.executeNext ≤ q → q < (n.advanceExecuteLocked hash tsc).executeNext →
      slotOf q ≠ k) → (n.advanceExecuteLocked hash tsc).log k = n.log k) ∧
    ∀ k, ∃ done, (n.advanceExecuteLocked hash tsc).acct.pending k =
        { n.acct.pending k with done := done } ∧
      ((n.acct.pending k).done = true → done = true) ∧
      ((n.acct.pending k).done = false ∧ done = true ↔
        (n.acct.pending k).done = false ∧ ∃ q, n.executeNext ≤ q ∧
          q < (n.advanceExecuteLocked hash tsc).executeNext ∧ OwnEntry n q k) := by
  have run := advance_readyRun hash tsc n
  have slots := decidedSlots_le n
  refine ⟨?_, ⟨⟨run.le, run.stuck (advance_drained n)⟩, ?_⟩, run.lap, run.store, run.reset,
    run.kept, ?_⟩
  · intro extra
    exact advanceLoop_fuel (kCompletionSlots + 1) extra (n, false) (Nat.lt_succ_of_le slots)
  · rintro q ⟨lo, stuck⟩
    by_contra before
    exact stuck (run.ready q lo (by omega))
  · intro k
    obtain ⟨done, fields, iff⟩ := run.pending k
    refine ⟨done, fields, fun before => iff.mpr (Or.inl before), ?_⟩
    constructor
    · rintro ⟨before, after⟩
      rcases iff.mp after with already | own
      · rw [before] at already
        cases already
      · exact ⟨before, own⟩
    · rintro ⟨before, own⟩
      exact ⟨before, iff.mpr (Or.inr own)⟩

end BandleCxl.Guarantees
