import BandleCxl.Guarantees.TraceSplit
import BandleCxl.Source.CxlTraceDB

/-!
When the splitter reports that there are no valid operations. It looks at the last
timestamp and not at the number of lines, so a trace that ends at time zero is taken for an
empty one.
-/
namespace BandleCxl.Guarantees
open Library Source

variable {n : Nat}

theorem traceGen_eq_none_iff (dataset : Dataset) (maxOps : Nat) (multinodeWrites : Bool) :
    (traceGen dataset maxOps multinodeWrites : Option (Splitter n)) = none ↔
      endTime (selectedEntries maxOps dataset.lines) = 0 := by
  unfold traceGen
  rw [← firstPass_endTsUs]
  dsimp only
  split
  · next zero => exact iff_of_true rfl zero
  · next positive => exact iff_of_false (by simp) positive

/-- Some line is selected as soon as one is accepted. -/
theorem selectedEntries_eq_nil_iff (maxOps : Nat) (lines : List Bytes) :
    selectedEntries maxOps lines = [] ↔ acceptedEntries lines = [] := by
  unfold selectedEntries
  split
  · exact Iff.rfl
  · next limited =>
    rw [List.take_eq_nil_iff]
    exact or_iff_right limited

/-- For every dataset, `max_ops`, flag and number of nodes: the error stands for a dataset
without an accepted line just when there is none, or the last selected line is not at
time zero. -/
theorem rejects_only_empty_iff (dataset : Dataset) (maxOps : Nat) (multinodeWrites : Bool) :
    ((traceGen dataset maxOps multinodeWrites : Option (Splitter n)) = none ↔
        acceptedEntries dataset.lines = []) ↔
      acceptedEntries dataset.lines = [] ∨
        ∃ e, (selectedEntries maxOps dataset.lines).getLast? = some e ∧ e.2.tsUs ≠ 0 := by
  rw [traceGen_eq_none_iff]
  by_cases empty : acceptedEntries dataset.lines = []
  · have none := (selectedEntries_eq_nil_iff maxOps dataset.lines).mpr empty
    refine iff_of_true (iff_of_true ?_ empty) (Or.inl empty)
    rw [none]
    rfl
  · have some : selectedEntries maxOps dataset.lines ≠ [] :=
      mt (selectedEntries_eq_nil_iff maxOps dataset.lines).mp empty
    have last := List.getLast?_eq_some_getLast some
    have time : endTime (selectedEntries maxOps dataset.lines) =
        ((selectedEntries maxOps dataset.lines).getLast some).2.tsUs := by
      rw [endTime, last]
      rfl
    rw [time, last]
    simp [empty]

/-- One read of the key `k` without a target rate: the line `0,G k`. -/
def unpacedTrace : Dataset where
  bytes := traceFile latin1 (Binding.init 1 0 100 0) false [10] [(.read (some [107]), 0)] 0 0
  size := by decide

theorem unpaced_trace_rejected :
    unpacedTrace.bytes = [48, 44, 71, 32, 107, 10] ∧
      ¬((traceGen unpacedTrace 0 true : Option (Splitter 0)) = none ↔
        acceptedEntries unpacedTrace.lines = []) := by
  have text : unpacedTrace.bytes = [48, 44, 71, 32, 107, 10] := by decide
  have accepted : acceptedEntries unpacedTrace.lines =
      [([48, 44, 71, 32, 107], { tsUs := 0, op := opG, key := [107], value := [] })] := by
    rw [Dataset.lines, text]
    rfl
  have rejected : (traceGen unpacedTrace 0 true : Option (Splitter 0)) = none := by
    rw [traceGen_eq_none_iff, selectedEntries, if_pos rfl, accepted]
    rfl
  refine ⟨text, fun claim => ?_⟩
  have none := claim.mp rejected
  rw [accepted] at none
  cases none

end BandleCxl.Guarantees
