import Mathlib.Tactic

/-!
Partial-step transition systems: reachability, executions, and the induction
rules that turn one-step facts into facts about every run. An action resolves
all nondeterminism, so a step is a partial function and a run can be evaluated.
-/
namespace BandleCxl.Library

/-- A system is a set of initial states and a step function; an action that is
not enabled in a state has no successor there. -/
structure TransitionSystem (σ α : Type*) where
  init : σ → Prop
  step : σ → α → Option σ

namespace TransitionSystem

variable {σ α : Type*} (M : TransitionSystem σ α)

inductive Reachable : σ → Prop where
  | start {s : σ} (initial : M.init s) : Reachable s
  | next {s t : σ} (a : α) (reached : Reachable s) (stepped : M.step s a = some t) : Reachable t

/-- Reachable by steps that all meet a condition on the state they start from. -/
inductive ReachableUnder (ok : σ → α → Prop) : σ → Prop where
  | start {s : σ} (initial : M.init s) : ReachableUnder ok s
  | next {s t : σ} (a : α) (reached : ReachableUnder ok s) (allowed : ok s a)
      (stepped : M.step s a = some t) : ReachableUnder ok t

/-- Evaluate a finite schedule; `none` as soon as an action is not enabled. -/
def run : σ → List α → Option σ
  | s, [] => some s
  | s, a :: rest => (M.step s a).bind fun t => run t rest

/-- Every step of a schedule meets a condition on the state it starts from. -/
def Meets (ok : σ → α → Prop) : σ → List α → Prop
  | _, [] => True
  | s, a :: rest => ∀ t, M.step s a = some t → ok s a ∧ Meets ok t rest

/-- An infinite observation of a run. A stuttering position stands for a moment
at which no thread moves, so finite runs are executions too. -/
structure Execution where
  state : Nat → σ
  start : M.init (state 0)
  next : ∀ k, state (k + 1) = state k ∨ ∃ a, M.step (state k) a = some (state (k + 1))

/-- The execution that follows a schedule, skipping actions that are not enabled. -/
def Execution.ofSchedule {s : σ} (start : M.init s) (schedule : List α) : M.Execution where
  state k := (schedule.take k).foldl (fun t a => (M.step t a).getD t) s
  start := start
  next k := by
    rw [List.take_add_one, List.foldl_append]
    cases schedule[k]? with
    | none => exact Or.inl rfl
    | some a =>
      simp only [Option.toList_some, List.foldl_cons, List.foldl_nil]
      cases stepped : M.step ((schedule.take k).foldl (fun t a => (M.step t a).getD t) s) a with
      | none => exact Or.inl rfl
      | some t => exact Or.inr ⟨a, stepped⟩

theorem run_append (s : σ) (first second : List α) :
    M.run s (first ++ second) = (M.run s first).bind fun t => M.run t second := by
  induction first generalizing s with
  | nil => rfl
  | cons a rest ih =>
    simp only [List.cons_append, run, Option.bind_assoc]
    congr 1
    funext t
    exact ih t

variable {M}

/-- Invariant rule; the step premise may use that the source state is reachable. -/
theorem Reachable.invariant {P : σ → Prop} (initial : ∀ s, M.init s → P s)
    (preserved : ∀ s a t, M.Reachable s → P s → M.step s a = some t → P t)
    {s : σ} (reached : M.Reachable s) : P s := by
  induction reached with
  | start h => exact initial _ h
  | next a reached stepped ih => exact preserved _ a _ reached ih stepped

theorem ReachableUnder.reachable {ok : σ → α → Prop} {s : σ} (reached : M.ReachableUnder ok s) :
    M.Reachable s := by
  induction reached with
  | start h => exact .start h
  | next a _ _ stepped ih => exact .next a ih stepped

theorem ReachableUnder.invariant {ok : σ → α → Prop} {P : σ → Prop}
    (initial : ∀ s, M.init s → P s)
    (preserved : ∀ s a t, M.Reachable s → P s → ok s a → M.step s a = some t → P t)
    {s : σ} (reached : M.ReachableUnder ok s) : P s := by
  induction reached with
  | start h => exact initial _ h
  | next a reached allowed stepped ih => exact preserved _ a _ reached.reachable ih allowed stepped

theorem ReachableUnder.weaken {ok ok' : σ → α → Prop} (le : ∀ s a, ok s a → ok' s a) {s : σ}
    (reached : M.ReachableUnder ok s) : M.ReachableUnder ok' s := by
  induction reached with
  | start h => exact .start h
  | next a _ allowed stepped ih => exact .next a ih (le _ a allowed) stepped

/-- Steps that meet the condition are steps of a second system too. -/
theorem ReachableUnder.within {N : TransitionSystem σ α} {ok : σ → α → Prop}
    (initial : ∀ s, M.init s → N.init s)
    (steps : ∀ s a t, ok s a → M.step s a = some t → N.step s a = some t) {s : σ}
    (reached : M.ReachableUnder ok s) : N.ReachableUnder ok s := by
  induction reached with
  | start h => exact .start (initial _ h)
  | next a _ allowed stepped ih => exact .next a ih allowed (steps _ a _ allowed stepped)

/-- A condition that every step from a reachable state meets restricts nothing. -/
theorem Reachable.under {ok : σ → α → Prop}
    (always : ∀ s a t, M.Reachable s → M.step s a = some t → ok s a) {s : σ}
    (reached : M.Reachable s) : M.ReachableUnder ok s := by
  induction reached with
  | start h => exact .start h
  | next a reached stepped ih => exact .next a ih (always _ a _ reached stepped) stepped

theorem Reachable.meets {ok : σ → α → Prop}
    (always : ∀ s a t, M.Reachable s → M.step s a = some t → ok s a) {s : σ} (schedule : List α)
    (reached : M.Reachable s) : M.Meets ok s schedule := by
  induction schedule generalizing s with
  | nil => trivial
  | cons a rest ih =>
    exact fun t stepped => ⟨always s a t reached stepped, ih (.next a reached stepped)⟩

theorem ReachableUnder.of_meets {ok : σ → α → Prop} {s t : σ} (schedule : List α)
    (reached : M.ReachableUnder ok s) (meets : M.Meets ok s schedule)
    (evaluated : M.run s schedule = some t) : M.ReachableUnder ok t := by
  induction schedule generalizing s with
  | nil =>
    simp only [run, Option.some.injEq] at evaluated
    subst t
    exact reached
  | cons a rest ih =>
    simp only [run, Option.bind_eq_some_iff] at evaluated
    obtain ⟨middle, stepped, evaluated⟩ := evaluated
    obtain ⟨first, later⟩ := meets middle stepped
    exact ih (.next a reached first stepped) later evaluated

/-- A condition that holds of some actions in every state. -/
theorem Meets.of_forall {ok : σ → α → Prop} (schedule : List α)
    (allowed : ∀ a ∈ schedule, ∀ s, ok s a) (s : σ) : M.Meets ok s schedule := by
  induction schedule generalizing s with
  | nil => trivial
  | cons a rest ih =>
    intro t _
    exact ⟨allowed a (List.mem_cons_self ..) s,
      ih (fun b member => allowed b (List.mem_cons_of_mem a member)) t⟩

theorem ReachableUnder.of_run {ok : σ → α → Prop} {s t : σ} (schedule : List α)
    (reached : M.ReachableUnder ok s) (allowed : ∀ a ∈ schedule, ∀ s, ok s a)
    (evaluated : M.run s schedule = some t) : M.ReachableUnder ok t :=
  reached.of_meets schedule (.of_forall schedule allowed s) evaluated

theorem Reachable.of_run {s t : σ} (schedule : List α) (reached : M.Reachable s)
    (evaluated : M.run s schedule = some t) : M.Reachable t := by
  induction schedule generalizing s with
  | nil =>
    simp only [run, Option.some.injEq] at evaluated
    subst t
    exact reached
  | cons a rest ih =>
    simp only [run, Option.bind_eq_some_iff] at evaluated
    obtain ⟨middle, stepped, evaluated⟩ := evaluated
    exact ih (.next a reached stepped) evaluated

theorem Execution.reachable (e : M.Execution) (k : Nat) : M.Reachable (e.state k) := by
  induction k with
  | zero => exact .start e.start
  | succ k ih =>
    rcases e.next k with same | ⟨a, stepped⟩
    · rw [same]
      exact ih
    · exact .next a ih stepped

/-- A reflexive and transitive relation that every step respects holds between
any two positions of an execution. -/
theorem Execution.monotone {R : σ → σ → Prop} (reflexive : ∀ s, R s s)
    (transitive : ∀ s t u, R s t → R t u → R s u)
    (respected : ∀ s a t, M.Reachable s → M.step s a = some t → R s t)
    (e : M.Execution) {j k : Nat} (le : j ≤ k) : R (e.state j) (e.state k) := by
  induction k, le using Nat.le_induction with
  | base => exact reflexive _
  | succ k _ ih =>
    rcases e.next k with same | ⟨a, stepped⟩
    · rw [same]
      exact ih
    · exact transitive _ _ _ ih (respected _ a _ (e.reachable k) stepped)

end TransitionSystem

end BandleCxl.Library
