import Mathlib.Tactic

/-!
One log of blocks that is sent to several receivers, block after block. A receiver has the
whole log, or all of it but the last block.
-/
namespace BandleCxl.Library

variable {α : Type*}

def CaughtUp (log : List (List α)) (stream : List α) : Prop := stream = log.flatten

def OneBehind (log : List (List α)) (stream : List α) : Prop :=
  ∃ earlier last, log = earlier ++ [last] ∧ stream = earlier.flatten

def Along (log : List (List α)) (stream : List α) : Prop :=
  CaughtUp log stream ∨ OneBehind log stream

variable {log : List (List α)} {stream block : List α}

theorem CaughtUp.send (h : CaughtUp log stream) : CaughtUp (log ++ [block]) (stream ++ block) := by
  rw [CaughtUp, h, List.flatten_append, List.flatten_singleton]

/-- Others have the new block, this receiver has not. -/
theorem CaughtUp.wait (h : CaughtUp log stream) : OneBehind (log ++ [block]) stream :=
  ⟨log, block, rfl, h⟩

theorem OneBehind.send (h : OneBehind (log ++ [block]) stream) :
    CaughtUp (log ++ [block]) (stream ++ block) := by
  obtain ⟨earlier, last, split, rfl⟩ := h
  obtain ⟨rfl, rfl⟩ := List.append_inj' split rfl |>.imp id List.singleton_inj.mp
  rw [CaughtUp, List.flatten_append, List.flatten_singleton]

theorem Along.exists_take (h : Along log stream) :
    ∃ k ≤ log.length, log.length ≤ k + 1 ∧ stream = (log.take k).flatten := by
  rcases h with whole | ⟨earlier, last, rfl, rfl⟩
  · exact ⟨log.length, Nat.le_refl _, Nat.le_succ _, by rw [List.take_length]; exact whole⟩
  · refine ⟨earlier.length, ?_, ?_, ?_⟩
    · simp
    · simp
    · rw [List.take_left]

/-! ### The sender's loop over the receivers -/

variable {κ : Type*}

/-- `todo` are the receivers that the loop has not reached with `block`, which is in the log as
soon as one of them has it. -/
structure Stage (receivers todo : List κ) (log : List (List α)) (block : List α)
    (stream : κ → List α) : Prop where
  fresh : todo = receivers → ∀ p ∈ receivers, CaughtUp log (stream p)
  logged : todo ≠ receivers → ∃ earlier, log = earlier ++ [block]
  waiting : todo ≠ receivers → ∀ p ∈ todo, OneBehind log (stream p)
  reached : todo ≠ receivers → ∀ p ∈ receivers, p ∉ todo → CaughtUp log (stream p)

variable {receivers todo : List κ} {streams : κ → List α} {p : κ}

theorem Stage.start (all : ∀ p ∈ receivers, CaughtUp log (streams p)) :
    Stage receivers receivers log block streams where
  fresh _ := all
  logged differ := absurd rfl differ
  waiting differ := absurd rfl differ
  reached differ := absurd rfl differ

theorem Stage.finish (h : Stage receivers [] log block streams) :
    ∀ p ∈ receivers, CaughtUp log (streams p) := by
  intro p member
  by_cases none : [] = receivers
  · exact h.fresh none p member
  · exact h.reached none p member List.not_mem_nil

/-- The next receiver gets the block. -/
theorem Stage.send [DecidableEq κ] (h : Stage receivers (p :: todo) log block streams)
    (suffix : p :: todo <:+ receivers) (nodup : receivers.Nodup) {log' : List (List α)}
    (logged : log' = if p :: todo = receivers then log ++ [block] else log) :
    Stage receivers todo log' block (Function.update streams p (streams p ++ block)) := by
  have absent : p ∉ todo := (List.nodup_cons.mp (nodup.sublist suffix.sublist)).1
  have shorter : todo ≠ receivers := by
    rintro rfl
    have := suffix.length_le
    simp at this
  by_cases first : p :: todo = receivers
  · rw [if_pos first] at logged
    subst logged
    have all := h.fresh first
    refine ⟨fun same => absurd same shorter, fun _ => ⟨log, rfl⟩, fun _ q member => ?_,
      fun _ q member outside => ?_⟩
    · rw [Function.update_of_ne (by rintro rfl; exact absent member)]
      exact (all q (first ▸ List.mem_cons_of_mem p member)).wait
    · obtain rfl : q = p := by
        rw [← first] at member
        exact (List.mem_cons.mp member).resolve_right outside
      rw [Function.update_self]
      exact (all q member).send
  · rw [if_neg first] at logged
    subst logged
    obtain ⟨earlier, split⟩ := h.logged first
    refine ⟨fun same => absurd same shorter, fun _ => ⟨earlier, split⟩, fun _ q member => ?_,
      fun _ q member outside => ?_⟩
    · rw [Function.update_of_ne (by rintro rfl; exact absent member)]
      exact h.waiting first q (List.mem_cons_of_mem p member)
    · by_cases same : q = p
      · subst q
        rw [Function.update_self]
        have behind := h.waiting first p (List.mem_cons_self ..)
        subst split
        exact behind.send
      · rw [Function.update_of_ne same]
        exact h.reached first q member (by simp [same, outside])

theorem Stage.along (h : Stage receivers todo log block streams) :
    ∀ p ∈ receivers, Along log (streams p) := by
  intro p member
  by_cases same : todo = receivers
  · exact Or.inl (h.fresh same p member)
  · by_cases inside : p ∈ todo
    · exact Or.inr (h.waiting same p inside)
    · exact Or.inl (h.reached same p member inside)

end BandleCxl.Library
