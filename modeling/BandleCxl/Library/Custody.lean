import Mathlib.Tactic

/-!
Tickets drawn from a counter. A ticket is held by whoever drew it until it is
released; no ticket is with two holders, or both held and released. Holders are
arbitrary, and there may be infinitely many of them.
-/
namespace BandleCxl.Library

variable {H : Type*}

/-- Every ticket below `bound` is released at most once or held at most once, never both. -/
structure Custody (bound : Nat) (released : List Nat) (held : H → List Nat) : Prop where
  released_nodup : released.Nodup
  released_lt : ∀ k ∈ released, k < bound
  held_nodup : ∀ h, (held h).Nodup
  held_lt : ∀ h, ∀ k ∈ held h, k < bound
  unreleased : ∀ h, ∀ k ∈ held h, k ∉ released
  apart : ∀ h h', h ≠ h' → ∀ k ∈ held h, k ∉ held h'

namespace Custody

variable {bound : Nat} {released : List Nat} {held : H → List Nat}

theorem nothing (bound : Nat) : Custody bound [] (fun _ : H => []) where
  released_nodup := List.nodup_nil
  released_lt _ member := by simp at member
  held_nodup _ := List.nodup_nil
  held_lt _ _ member := by simp at member
  unreleased _ _ member := by simp at member
  apart _ _ _ _ member := by simp at member

variable [DecidableEq H]

theorem mem_update_iff {who i : H} {tickets : List Nat} {k : Nat} :
    k ∈ Function.update held who tickets i ↔ (i = who ∧ k ∈ tickets) ∨ (i ≠ who ∧ k ∈ held i) := by
  by_cases here : i = who
  · subst i
    simp
  · simp [here]

theorem nodup_update {who : H} {tickets : List Nat} (others : ∀ i, (held i).Nodup)
    (nodup : tickets.Nodup) (i : H) : (Function.update held who tickets i).Nodup := by
  by_cases here : i = who
  · subst i
    rwa [Function.update_self]
  · rw [Function.update_of_ne here]
    exact others i

/-- A holder draws tickets that the counter passes. -/
theorem draw (h : Custody bound released held) {bound' : Nat} (le : bound ≤ bound') (who : H)
    {drawn : List Nat} (nodup : drawn.Nodup) (fresh : ∀ k ∈ drawn, bound ≤ k ∧ k < bound') :
    Custody bound' released (Function.update held who drawn) where
  released_nodup := h.released_nodup
  released_lt k member := Nat.lt_of_lt_of_le (h.released_lt k member) le
  held_nodup := nodup_update h.held_nodup nodup
  held_lt i k member := by
    rcases mem_update_iff.mp member with ⟨-, new⟩ | ⟨-, old⟩
    · exact (fresh k new).2
    · exact Nat.lt_of_lt_of_le (h.held_lt i k old) le
  unreleased i k member again := by
    rcases mem_update_iff.mp member with ⟨-, new⟩ | ⟨-, old⟩
    · exact Nat.not_lt.mpr (fresh k new).1 (h.released_lt k again)
    · exact h.unreleased i k old again
  apart i j different k first second := by
    -- a drawn ticket is at least `bound`, every other held one is below it
    rcases mem_update_iff.mp first with ⟨here, new⟩ | ⟨-, old⟩ <;>
      rcases mem_update_iff.mp second with ⟨there, new'⟩ | ⟨-, old'⟩
    · exact different (here.trans there.symm)
    · exact Nat.not_lt.mpr (fresh k new).1 (h.held_lt j k old')
    · exact Nat.not_lt.mpr (fresh k new').1 (h.held_lt i k old)
    · exact h.apart i j different k old old'

/-- A holder releases all its tickets. -/
theorem release (h : Custody bound released held) (who : H) :
    Custody bound (released ++ held who) (Function.update held who []) where
  released_nodup := by
    rw [List.nodup_append]
    refine ⟨h.released_nodup, h.held_nodup who, ?_⟩
    intro k old l new same
    subst l
    exact h.unreleased who k new old
  released_lt k member := by
    rcases List.mem_append.mp member with old | new
    · exact h.released_lt k old
    · exact h.held_lt who k new
  held_nodup := nodup_update h.held_nodup List.nodup_nil
  held_lt i k member := by
    rcases mem_update_iff.mp member with ⟨-, none⟩ | ⟨-, old⟩
    · simp at none
    · exact h.held_lt i k old
  unreleased i k member again := by
    rcases mem_update_iff.mp member with ⟨-, none⟩ | ⟨other, held⟩
    · simp at none
    · rcases List.mem_append.mp again with old | new
      · exact h.unreleased i k held old
      · exact h.apart i who other k held new
  apart i j different k first second := by
    rcases mem_update_iff.mp first with ⟨-, none⟩ | ⟨-, old⟩
    · simp at none
    · rcases mem_update_iff.mp second with ⟨-, none⟩ | ⟨-, old'⟩
      · simp at none
      · exact h.apart i j different k old old'

end Custody

end BandleCxl.Library
