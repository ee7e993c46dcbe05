import Mathlib.Tactic

/-!
Replicated logs, abstractly. A log assigns an entry to some positions, counted
from one. A replica follows a log if it has executed exactly its first entries,
once each and in order, and its state is their fold over the initial state.
-/
namespace BandleCxl.Library

variable {ε σ : Type*}

structure Follows (apply : σ → ε → σ) (init : σ) (log : Nat → Option ε) (executed : List ε)
    (state : σ) : Prop where
  cells : ∀ k (inside : k < executed.length), log (k + 1) = some executed[k]
  state : state = executed.foldl apply init

variable {apply : σ → ε → σ} {init : σ} {log : Nat → Option ε} {first second : List ε} {s t : σ}

/-- Two followers of one log: the shorter history begins the longer one. -/
theorem Follows.isPrefix (a : Follows apply init log first s) (b : Follows apply init log second t)
    (le : first.length ≤ second.length) : first <+: second := by
  rw [List.prefix_iff_eq_take]
  apply List.ext_getElem
  · simp [le]
  · intro k inside _
    have left := a.cells k inside
    have right := b.cells k (by omega)
    rw [left] at right
    rw [List.getElem_take]
    exact Option.some.inj right

/-- State-machine replication: as much executed, the same state. -/
theorem Follows.agree (a : Follows apply init log first s) (b : Follows apply init log second t)
    (same : first.length = second.length) : s = t := by
  have equal := (a.isPrefix b (Nat.le_of_eq same)).eq_of_length same
  rw [a.state, b.state, equal]

end BandleCxl.Library
