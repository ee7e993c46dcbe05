import BandleCxl.Source.Bandle

/-!
`advance_execute_locked` executes entry by entry. The source collects up to 256
ready entries, applies their writes as one batch and then completes them; the
run below executes one ready entry at a time. `batch_run` shows that a batch is
such a run, `advance_run` that the whole call is, and `advance_drained` that the
call stops only where no entry is ready. Everything proved about the call
afterwards goes through `ExecRun`.
-/
namespace BandleCxl.Source
open Library

namespace Bandle

theorem slotOf_eq (seq : Nat) : slotOf seq = seq % 65536 :=
  Nat.and_two_pow_sub_one_eq_mod seq 16

theorem slotOf_lt (seq : Nat) : slotOf seq < kCompletionSlots := by
  rw [slotOf_eq]
  exact Nat.mod_lt _ (by decide)

/-- Two numbers less than one lap apart share a slot only if they are equal. -/
theorem slotOf_ne {a b : Nat} (lt : a < b) (near : b < a + kCompletionSlots) :
    slotOf a ≠ slotOf b := by
  have : kCompletionSlots = 65536 := rfl
  rw [slotOf_eq, slotOf_eq]
  omega

section
variable (hash : Bytes → Nat) (tsc : Nat → Nat)

/-- Apply, complete and reset the entry at `execute_next_`. -/
def executeEntry (st : Bandle × Bool) : Bandle × Bool :=
  let applied := { st.1 with kv := st.1.kv.applyOpsInOrder (st.1.applyOpAt hash st.1.executeNext) }
  let done := completeEntry tsc st.1.executeNext (applied, st.2)
  ({ done.1 with executeNext := st.1.executeNext + 1 }, done.2)

inductive ExecRun : Bandle × Bool → Bandle × Bool → Prop where
  | refl (st : Bandle × Bool) : ExecRun st st
  | step {st st' : Bandle × Bool} (ready : st.1.Executable st.1.executeNext)
      (rest : ExecRun (executeEntry hash tsc st) st') : ExecRun st st'

end

variable {hash : Bytes → Nat} {tsc : Nat → Nat}

theorem ExecRun.trans {a b c : Bandle × Bool} (first : ExecRun hash tsc a b)
    (second : ExecRun hash tsc b c) : ExecRun hash tsc a c := by
  induction first with
  | refl => exact second
  | step ready _ ih => exact .step ready (ih second)

/-- Rule for node properties: check one executed entry. -/
theorem ExecRun.invariant {P : Bandle → Prop} {st st' : Bandle × Bool}
    (run : ExecRun hash tsc st st')
    (preserved : ∀ n flag, P n → n.Executable n.executeNext →
      P (executeEntry hash tsc (n, flag)).1) (holds : P st.1) : P st'.1 := by
  induction run with
  | refl => exact holds
  | step ready _ ih => exact ih (preserved _ _ holds ready)

/-- Set the store and `execute_next_`, which completion neither reads nor writes. -/
def placed (kv : KVStore) (next : Nat) (st : Bandle × Bool) : Bandle × Bool :=
  ({ st.1 with kv := kv, executeNext := next }, st.2)

theorem completeRange_placed (tsc : Nat → Nat) (kv : KVStore) (next count seq : Nat) (st : Bandle × Bool) :
    completeRange tsc seq count (placed kv next st) =
      placed kv next (completeRange tsc seq count st) := by
  induction count generalizing seq st with
  | zero => rfl
  | succ count ih => exact ih (seq + 1) (completeEntry tsc seq st)

theorem executeEntry_placed (st : Bandle × Bool) :
    executeEntry hash tsc st =
      placed (st.1.kv.applyOpsInOrder (st.1.applyOpAt hash st.1.executeNext))
        (st.1.executeNext + 1) (completeEntry tsc st.1.executeNext st) := rfl

/-- Collecting reads only the slots of the numbers it visits. -/
theorem collectReady_congr {n n' : Bandle} {seq budget : Nat}
    (same : ∀ s, seq ≤ s → s < seq + budget → n'.log (slotOf s) = n.log (slotOf s) ∧
      n'.logPayloads (slotOf s) = n.logPayloads (slotOf s)) :
    n'.collectReady hash seq budget = n.collectReady hash seq budget := by
  induction budget generalizing seq with
  | zero => rfl
  | succ budget ih =>
    obtain ⟨logEq, payloadEq⟩ := same seq (by omega) (by omega)
    have rest : n'.collectReady hash (seq + 1) budget = n.collectReady hash (seq + 1) budget :=
      ih fun s lo hi => same s (by omega) (by omega)
    have ready : n'.Executable seq ↔ n.Executable seq := by simp only [Executable, logEq]
    have op : n'.applyOpAt hash seq = n.applyOpAt hash seq := by
      simp only [applyOpAt, logEq, payloadEq]
    simp only [collectReady, ready, op, rest]

/-- The round of the outer loop for a given batch limit. -/
def executeBatch (hash : Bytes → Nat) (tsc : Nat → Nat) (budget : Nat) (st : Bandle × Bool) :
    Bandle × Bool :=
  let ready := st.1.collectReady hash st.1.executeNext budget
  let done := completeRange tsc st.1.executeNext ready.1
    ({ st.1 with kv := st.1.kv.applyOpsInOrder ready.2 }, st.2)
  ({ done.1 with executeNext := st.1.executeNext + ready.1 }, done.2)

theorem executeBatch_placed (budget : Nat) (st : Bandle × Bool) :
    executeBatch hash tsc budget st =
      placed (st.1.kv.applyOpsInOrder (st.1.collectReady hash st.1.executeNext budget).2)
        (st.1.executeNext + (st.1.collectReady hash st.1.executeNext budget).1)
        (completeRange tsc st.1.executeNext
          (st.1.collectReady hash st.1.executeNext budget).1 st) := by
  have moved := completeRange_placed tsc
    (st.1.kv.applyOpsInOrder (st.1.collectReady hash st.1.executeNext budget).2)
    st.1.executeNext (st.1.collectReady hash st.1.executeNext budget).1 st.1.executeNext st
  exact congrArg (fun out : Bandle × Bool => ({ out.1 with
    executeNext := st.1.executeNext + (st.1.collectReady hash st.1.executeNext budget).1 },
    out.2)) moved

/-- Taking the first ready entry out of a batch. The entries of a batch lie in
different slots, so completing one leaves the others as they were collected. -/
theorem executeBatch_succ (budget : Nat) (st : Bandle × Bool) (lap : budget < kCompletionSlots)
    (ready : st.1.Executable st.1.executeNext) :
    executeBatch hash tsc (budget + 1) st =
      executeBatch hash tsc budget (executeEntry hash tsc st) := by
  have same : (executeEntry hash tsc st).1.collectReady hash (st.1.executeNext + 1) budget =
      st.1.collectReady hash (st.1.executeNext + 1) budget := by
    apply collectReady_congr
    intro s lo hi
    refine ⟨?_, rfl⟩
    have apart : slotOf s ≠ slotOf st.1.executeNext := (slotOf_ne (by omega) (by omega)).symm
    simp only [executeEntry, completeEntry, Function.update_of_ne apart]
  have next : (executeEntry hash tsc st).1.executeNext = st.1.executeNext + 1 := rfl
  have store : (executeEntry hash tsc st).1.kv =
    st.1.kv.applyOpsInOrder (st.1.applyOpAt hash st.1.executeNext) := rfl
  have order : st.1.executeNext + ((st.1.collectReady hash (st.1.executeNext + 1) budget).1 + 1) =
    st.1.executeNext + 1 + (st.1.collectReady hash (st.1.executeNext + 1) budget).1 := by omega
  rw [executeBatch_placed, executeBatch_placed, next, same, store, executeEntry_placed,
    completeRange_placed]
  simp only [collectReady, ready, if_true, completeRange, order, KVStore.applyOpsInOrder,
    List.foldl_append]
  rfl

/-- A batch of at most one lap is a run of single entries. -/
theorem batch_run (budget : Nat) (st : Bandle × Bool) (lap : budget < kCompletionSlots) :
    ExecRun hash tsc st (executeBatch hash tsc budget st) := by
  induction budget generalizing st with
  | zero => exact .refl st
  | succ budget ih =>
    by_cases ready : st.1.Executable st.1.executeNext
    · rw [executeBatch_succ budget st (by omega) ready]
      exact .step ready (ih _ (by omega))
    · have unchanged : executeBatch hash tsc (budget + 1) st = st := by
        simp [executeBatch, collectReady, ready, completeRange]
      rw [unchanged]
      exact .refl st

theorem advanceLoop_run (fuel : Nat) (st : Bandle × Bool) :
    ExecRun hash tsc st (advanceLoop hash tsc fuel st) := by
  induction fuel generalizing st with
  | zero => exact .refl st
  | succ fuel ih =>
    simp only [advanceLoop]
    split
    · exact .refl st
    · exact (batch_run kExecuteBatchMax st (by decide)).trans (ih _)

/-! ### Termination of the outer loop -/

def decidedSlots (n : Bandle) : Nat :=
  ((Finset.range kCompletionSlots).filter fun k => (n.log k).decided = true).card

theorem executeEntry_decided (hash : Bytes → Nat) (tsc : Nat → Nat) (st : Bandle × Bool)
    (ready : st.1.Executable st.1.executeNext) :
    (executeEntry hash tsc st).1.decidedSlots + 1 = st.1.decidedSlots := by
  have member : slotOf st.1.executeNext ∈
      (Finset.range kCompletionSlots).filter fun k => (st.1.log k).decided = true := by
    rw [Finset.mem_filter, Finset.mem_range]
    exact ⟨slotOf_lt _, ready.2.1⟩
  have erased : ((Finset.range kCompletionSlots).filter fun k =>
      ((executeEntry hash tsc st).1.log k).decided = true) =
      ((Finset.range kCompletionSlots).filter fun k => (st.1.log k).decided = true).erase
        (slotOf st.1.executeNext) := by
    ext k
    rw [Finset.mem_filter, Finset.mem_erase, Finset.mem_filter]
    by_cases same : k = slotOf st.1.executeNext
    · simp [executeEntry, completeEntry, same, resetLogEntry]
    · simp [executeEntry, completeEntry, same]
  rw [decidedSlots, erased, Finset.card_erase_of_mem member, decidedSlots]
  have := Finset.card_pos.mpr ⟨_, member⟩
  omega

/-- Each executed entry frees one decided slot. -/
theorem ExecRun.decided {st st' : Bandle × Bool} (run : ExecRun hash tsc st st') :
    st'.1.decidedSlots + st'.1.executeNext = st.1.decidedSlots + st.1.executeNext ∧
      st.1.executeNext ≤ st'.1.executeNext := by
  induction run with
  | refl => exact ⟨rfl, Nat.le_refl _⟩
  | step ready rest ih =>
    have freed := executeEntry_decided hash tsc _ ready
    have next : ∀ s : Bandle × Bool, (executeEntry hash tsc s).1.executeNext =
      s.1.executeNext + 1 := fun _ => rfl
    rw [next] at ih
    omega

theorem collectReady_zero {n : Bandle} {seq budget : Nat}
    (none : (n.collectReady hash seq (budget + 1)).1 = 0) : ¬ n.Executable seq := by
  intro ready
  simp [collectReady, ready] at none

theorem advanceLoop_drained (fuel : Nat) (st : Bandle × Bool) (enough : st.1.decidedSlots < fuel) :
    ¬ (advanceLoop hash tsc fuel st).1.Executable (advanceLoop hash tsc fuel st).1.executeNext := by
  induction fuel generalizing st with
  | zero => omega
  | succ fuel ih =>
    simp only [advanceLoop]
    split
    · next none => exact collectReady_zero none
    · next some =>
      apply ih
      have batch : ExecRun hash tsc st (executeBatch hash tsc kExecuteBatchMax st) :=
        batch_run kExecuteBatchMax st (by decide)
      have run := batch.decided
      have advanced : (executeBatch hash tsc kExecuteBatchMax st).1.executeNext =
        st.1.executeNext + (st.1.collectReady hash st.1.executeNext kExecuteBatchMax).1 := rfl
      have goal : (executeBatch hash tsc kExecuteBatchMax st).1.decidedSlots < fuel := by omega
      exact goal

theorem decidedSlots_le (n : Bandle) : n.decidedSlots ≤ kCompletionSlots := by
  refine Nat.le_trans (Finset.card_filter_le _ _) ?_
  rw [Finset.card_range]

/-- What a call of `advance_execute_locked` does: a run of single entries that
ends where nothing is ready, and at most one notification. -/
theorem advance_spec (hash : Bytes → Nat) (tsc : Nat → Nat) (n : Bandle) :
    ∃ out, ExecRun hash tsc (n, false) out ∧ ¬ out.1.Executable out.1.executeNext ∧
      n.advanceExecuteLocked hash tsc =
        { out.1 with hist := { out.1.hist with
            notified := out.1.hist.notified + if out.2 then 1 else 0 } } := by
  refine ⟨advanceLoop hash tsc (kCompletionSlots + 1) (n, false), advanceLoop_run _ _,
    advanceLoop_drained _ _ (Nat.lt_succ_of_le (decidedSlots_le n)), ?_⟩
  simp only [advanceExecuteLocked]
  split <;> rfl

/-- Rule for `advance_execute_locked`: a property that ignores the notification
count and survives one executed entry survives the call. -/
theorem advance_invariant {P : Bandle → Prop} (n : Bandle)
    (frame : ∀ m k, P m → P { m with hist := { m.hist with notified := k } })
    (preserved : ∀ m flag, P m → m.Executable m.executeNext →
      P (executeEntry hash tsc (m, flag)).1) (holds : P n) :
    P (n.advanceExecuteLocked hash tsc) := by
  obtain ⟨out, run, -, eq⟩ := advance_spec hash tsc n
  rw [eq]
  exact frame _ _ (run.invariant preserved holds)

theorem advance_drained (n : Bandle) :
    ¬ (n.advanceExecuteLocked hash tsc).Executable
      (n.advanceExecuteLocked hash tsc).executeNext := by
  obtain ⟨out, -, stuck, eq⟩ := advance_spec hash tsc n
  rw [eq]
  exact stuck

end Bandle

end BandleCxl.Source
