import BandleCxl.Library.Transition

/-!
Forward simulation with visible events. A step of the implementation shows one event, which is
a step of the specification, or nothing, and then the specification stands still. Along a run
the specification takes the events that the run shows.
-/
namespace BandleCxl.Library

namespace TransitionSystem

variable {σ α τ ε : Type*}

/-- What a schedule shows from `s` on. -/
def events (M : TransitionSystem σ α) (event : σ → α → Option ε) : σ → List α → List ε
  | _, [] => []
  | s, a :: rest =>
    (event s a).toList ++
      match M.step s a with
      | some t => events M event t rest
      | none => []

structure Refines (M : TransitionSystem σ α) (spec : TransitionSystem τ ε)
    (event : σ → α → Option ε) (R : σ → τ → Prop) : Prop where
  start : ∀ s, M.init s → ∃ t, spec.init t ∧ R s t
  silent : ∀ s a s' t, R s t → M.step s a = some s' → event s a = none → R s' t
  shows : ∀ s a s' t e, R s t → M.step s a = some s' → event s a = some e →
    ∃ t', spec.step t e = some t' ∧ R s' t'

variable {M : TransitionSystem σ α} {spec : TransitionSystem τ ε} {event : σ → α → Option ε}
  {R : σ → τ → Prop}

theorem Refines.run (refines : Refines M spec event R) {schedule : List α} {s s' : σ} {t : τ}
    (related : R s t) (ran : M.run s schedule = some s') :
    ∃ t', spec.run t (M.events event s schedule) = some t' ∧ R s' t' := by
  induction schedule generalizing s t with
  | nil =>
    cases ran
    exact ⟨t, rfl, related⟩
  | cons a rest ih =>
    obtain ⟨middle, stepped, later⟩ := Option.bind_eq_some_iff.mp ran
    simp only [events, stepped]
    cases shown : event s a with
    | none => exact ih (refines.silent s a middle t related stepped shown) later
    | some e =>
      obtain ⟨t₁, moved, related₁⟩ := refines.shows s a middle t e related stepped shown
      obtain ⟨t', taken, final⟩ := ih related₁ later
      refine ⟨t', ?_, final⟩
      rw [Option.toList_some, List.singleton_append, TransitionSystem.run, moved]
      exact taken

/-! ### Simulation by schedules

Where a step of the implementation may be several steps of the specification, or none. An
execution of the implementation shows an execution of the specification that takes the matching
schedules one after another, with a moment of rest between two of them. -/

variable {β : Type*} {abstract : TransitionSystem τ β}

/-- In schedule number `k`, with `rest` of it to come. -/
structure Playing (τ β : Type*) where
  k : Nat
  state : τ
  rest : List β

def play (abstract : TransitionSystem τ β) (schedules : Nat → List β) (p : Playing τ β) :
    Playing τ β :=
  match p.rest with
  | [] => { k := p.k + 1, state := p.state, rest := schedules (p.k + 1) }
  | b :: rest => { p with state := (abstract.step p.state b).getD p.state, rest := rest }

/-- Playing is an execution. -/
def Execution.playing (schedules : Nat → List β) {t : τ} (initial : abstract.init t) :
    abstract.Execution where
  state n := ((play abstract schedules)^[n] ⟨0, t, schedules 0⟩).state
  start := initial
  next n := by
    rw [Function.iterate_succ_apply']
    generalize (play abstract schedules)^[n] ⟨0, t, schedules 0⟩ = p
    unfold play
    split
    · exact Or.inl rfl
    · next b rest here =>
      cases stepped : abstract.step p.state b with
      | none => exact Or.inl rfl
      | some t' => exact Or.inr ⟨b, stepped⟩

theorem play_schedule (schedules : Nat → List β) {schedule : List β} {k : Nat} {t t' : τ}
    (ran : abstract.run t schedule = some t') :
    (play abstract schedules)^[schedule.length] ⟨k, t, schedule⟩ = ⟨k, t', []⟩ := by
  induction schedule generalizing t with
  | nil =>
    cases ran
    rfl
  | cons b rest ih =>
    obtain ⟨middle, stepped, later⟩ := Option.bind_eq_some_iff.mp ran
    rw [List.length_cons, Function.iterate_succ_apply]
    have first : play abstract schedules ⟨k, t, b :: rest⟩ = ⟨k, middle, rest⟩ := by
      simp only [play, stepped, Option.getD_some]
    rw [first]
    exact ih later

/-- When schedule number `k` begins. -/
def startOf (schedules : Nat → List β) : Nat → Nat
  | 0 => 0
  | k + 1 => startOf schedules k + ((schedules k).length + 1)

theorem startOf_strictMono (schedules : Nat → List β) : StrictMono (startOf schedules) :=
  strictMono_nat_of_lt_succ fun k => by
    rw [startOf]
    omega

theorem play_startOf (schedules : Nat → List β) (states : Nat → τ)
    (ran : ∀ k, abstract.run (states k) (schedules k) = some (states (k + 1))) (k : Nat) :
    (play abstract schedules)^[startOf schedules k] ⟨0, states 0, schedules 0⟩ =
      ⟨k, states k, schedules k⟩ := by
  induction k with
  | zero => rfl
  | succ k ih =>
    rw [startOf, Nat.add_comm, Function.iterate_add_apply, ih, Nat.add_comm,
      Function.iterate_add_apply, play_schedule schedules (ran k)]
    rfl

/-- Each execution of the implementation is, moment by moment, related to one of the
specification. -/
theorem Execution.simulated (start : ∀ s, M.init s → ∃ t, abstract.init t ∧ R s t)
    (matched : ∀ s a s' t, abstract.Reachable t → R s t → M.step s a = some s' →
      ∃ schedule t', abstract.run t schedule = some t' ∧ R s' t')
    (e : M.Execution) :
    ∃ (f : abstract.Execution) (moment : Nat → Nat), StrictMono moment ∧
      ∀ k, R (e.state k) (f.state (moment k)) := by
  obtain ⟨t, initial, related⟩ := start _ e.start
  have onward : ∀ k (t : { t // abstract.Reachable t ∧ R (e.state k) t }), ∃ schedule,
      ∃ t' : { t // abstract.Reachable t ∧ R (e.state (k + 1)) t },
        abstract.run t.1 schedule = some t'.1 := by
    rintro k ⟨t, reachable, related⟩
    rcases e.next k with same | ⟨a, stepped⟩
    · exact ⟨[], ⟨t, reachable, same ▸ related⟩, rfl⟩
    · obtain ⟨schedule, t', ran, final⟩ := matched _ a _ t reachable related stepped
      exact ⟨schedule, ⟨t', reachable.of_run schedule ran, final⟩, ran⟩
  choose schedule after ran using onward
  let states : ∀ k, { t // abstract.Reachable t ∧ R (e.state k) t } := fun k =>
    Nat.rec ⟨t, .start initial, related⟩ (fun k t => after k t) k
  let schedules : Nat → List β := fun k => schedule k (states k)
  refine ⟨.playing schedules initial, startOf schedules,
    startOf_strictMono schedules, fun k => ?_⟩
  have here := play_startOf schedules (fun k => (states k).1)
    (fun k => ran k (states k)) k
  have state := congrArg Playing.state here
  change R (e.state k) ((play abstract schedules)^[startOf schedules k] _).state
  exact state ▸ (states k).2.2

/-- Where an execution along a schedule is once an enabled part of it has been taken. -/
theorem Execution.state_ofSchedule {s t : σ} (start : M.init s) (schedule : List α) (k : Nat)
    (ran : M.run s (schedule.take k) = some t) :
    (Execution.ofSchedule M start schedule).state k = t := by
  change (schedule.take k).foldl (fun t a => (M.step t a).getD t) s = t
  clear start
  generalize schedule.take k = taken at ran ⊢
  induction taken generalizing s with
  | nil =>
    cases ran
    rfl
  | cons a rest ih =>
    obtain ⟨middle, stepped, later⟩ := Option.bind_eq_some_iff.mp ran
    rw [List.foldl_cons, stepped, Option.getD_some]
    exact ih later

end TransitionSystem

end BandleCxl.Library
