import Mathlib.Algebra.Order.BigOperators.Group.Finset
import Mathlib.Data.Finset.Max
import Mathlib.Data.Finset.Powerset

/-!
Threads that take locks hand over hand: each follows its own list of locks and lets go of one
only when it has the next. A placement of threads that can be told apart by the locks they
hold is either reached from the start, or its threads block each other on the way to it, and
then a placement in which they wait for each other is reached.
-/
namespace BandleCxl.Library

/-- For each thread the locks in the order it takes them. -/
structure LockPaths (ι β : Type*) where
  lock : ι → Nat → Option β
  ended : ∀ t i, lock t i = none → lock t (i + 1) = none
  differs : ∀ t i a, lock t i = some a → lock t (i + 1) ≠ some a

namespace LockPaths

variable {ι β : Type*} (L : LockPaths ι β)

/-- The lock of a thread that has taken `p t` locks. -/
def held (p : ι → Nat) (t : ι) : Option β :=
  match p t with
  | 0 => none
  | i + 1 => L.lock t i

theorem held_zero {p : ι → Nat} {t : ι} (none_taken : p t = 0) : L.held p t = none := by
  rw [held, none_taken]

theorem held_pos {p : ι → Nat} {t : ι} (taken : 0 < p t) : L.held p t = L.lock t (p t - 1) := by
  obtain ⟨i, eq⟩ := Nat.exists_eq_succ_of_ne_zero (Nat.pos_iff_ne_zero.mp taken)
  rw [held, eq]
  rfl

theorem held_congr {p q : ι → Nat} {t : ι} (same : p t = q t) : L.held p t = L.held q t := by
  rw [held, held, same]

variable [DecidableEq ι]

/-- Placements reached when threads take free locks one by one. -/
inductive Reached : (ι → Nat) → Prop where
  | start : Reached fun _ => 0
  | take {p : ι → Nat} {t : ι} {a : β} (reached : Reached p) (next : L.lock t (p t) = some a)
      (free : ∀ u, L.held p u ≠ some a) : Reached (Function.update p t (p t + 1))

/-- Each thread of a non-empty set waits for a lock that another one of it holds. -/
def Blocked (p : ι → Nat) (W : Set ι) : Prop :=
  W.Nonempty ∧ ∀ t ∈ W, ∃ u ∈ W, u ≠ t ∧ ∃ a, L.lock t (p t) = some a ∧ L.held p u = some a

/-- Only threads of `V` have moved, they hold a lock each, and no lock is held twice. -/
structure Placed (p : ι → Nat) (V : Finset ι) : Prop where
  moved : ∀ t, 0 < p t ↔ t ∈ V
  holds : ∀ t ∈ V, (L.held p t).isSome
  single : ∀ t u a, L.held p t = some a → L.held p u = some a → t = u

variable {L}

omit [DecidableEq ι] in
theorem Placed.mem_of_held {p : ι → Nat} {V : Finset ι} (placed : L.Placed p V) {t : ι} {a : β}
    (holds : L.held p t = some a) : t ∈ V := by
  rw [← placed.moved, Nat.pos_iff_ne_zero]
  intro zero
  rw [L.held_zero zero] at holds
  cases holds

omit [DecidableEq ι] in
theorem placed_of_holders {p : ι → Nat} {V : Finset ι} (still : ∀ t ∉ V, p t = 0)
    (holds : ∀ t ∈ V, ∃ a, L.held p t = some a)
    (single : ∀ t ∈ V, ∀ u ∈ V, ∀ a, L.held p t = some a → L.held p u = some a → t = u) :
    L.Placed p V := by
  have inside : ∀ t a, L.held p t = some a → t ∈ V := by
    intro t a held
    by_contra absent
    rw [L.held_zero (still t absent)] at held
    cases held
  constructor
  · intro t
    constructor
    · intro moved
      by_contra absent
      exact absurd (still t absent) (Nat.pos_iff_ne_zero.mp moved)
    · intro member
      obtain ⟨a, held⟩ := holds t member
      apply Nat.pos_of_ne_zero
      intro zero
      rw [L.held_zero zero] at held
      cases held
  · intro t member
    obtain ⟨a, held⟩ := holds t member
    rw [held]
    rfl
  · intro t u a first second
    exact single t (inside t a first) u (inside u a second) a first second

/-- Every function on a finite set permutes some part of it. -/
theorem exists_permuted {V : Finset ι} (some : V.Nonempty) {next : ι → ι}
    (closed : ∀ t ∈ V, next t ∈ V) :
    ∃ C ⊆ V, C.Nonempty ∧ C.image next = C ∧ Set.InjOn next C := by
  let good : Finset (Finset ι) := V.powerset.filter fun C => C.Nonempty ∧ ∀ t ∈ C, next t ∈ C
  have whole : V ∈ good :=
    Finset.mem_filter.mpr ⟨Finset.mem_powerset_self V, some, closed⟩
  obtain ⟨C, member, least⟩ := Finset.exists_min_image good Finset.card ⟨V, whole⟩
  obtain ⟨part, nonempty, closed'⟩ := Finset.mem_filter.mp member
  have inside : C.image next ⊆ C := by
    intro u found
    obtain ⟨t, here, rfl⟩ := Finset.mem_image.mp found
    exact closed' t here
  have again : C.image next ∈ good := by
    refine Finset.mem_filter.mpr ⟨?_, nonempty.image next, fun u found => ?_⟩
    · exact Finset.mem_powerset.mpr (inside.trans (Finset.mem_powerset.mp part))
    · exact Finset.mem_image_of_mem next (inside found)
  have all : C.image next = C := Finset.eq_of_subset_of_card_le inside (least _ again)
  refine ⟨C, Finset.mem_powerset.mp part, nonempty, all, ?_⟩
  exact Finset.card_image_iff.mp (congrArg Finset.card all)

/-! ### One thread a step back -/

/-- The placement before the last lock that a thread took. -/
def stepBack (p : ι → Nat) (t : ι) : ι → Nat := Function.update p t (p t - 1)

section
variable {p : ι → Nat} {V : Finset ι} {t : ι}

@[simp] theorem stepBack_self : stepBack p t t = p t - 1 := Function.update_self t _ p

theorem stepBack_of_ne {u : ι} (other : u ≠ t) : stepBack p t u = p u := Function.update_of_ne other _ p

theorem held_stepBack_of_ne {u : ι} (other : u ≠ t) : L.held (stepBack p t) u = L.held p u :=
  L.held_congr (stepBack_of_ne other)

/-- A thread that has a lock had one before, unless it was its first. -/
theorem Placed.held_back (placed : L.Placed p V) (member : t ∈ V) (second : 1 < p t) :
    ∃ a b, L.held p t = some a ∧ L.held (stepBack p t) t = some b ∧ a ≠ b := by
  obtain ⟨a, now⟩ := Option.isSome_iff_exists.mp (placed.holds t member)
  have last : L.lock t (p t - 1 - 1 + 1) = some a := by
    rw [← now, L.held_pos (by omega)]
    congr 1
    omega
  have before : L.held (stepBack p t) t = L.lock t (p t - 1 - 1) := by
    rw [L.held_pos (by rw [stepBack_self]; omega), stepBack_self]
  cases earlier : L.lock t (p t - 1 - 1) with
  | none =>
    rw [L.ended t _ earlier] at last
    cases last
  | some b =>
    refine ⟨a, b, now, before.trans earlier, ?_⟩
    rintro rfl
    exact L.differs t _ a earlier last

/-- If no other thread holds the lock it had before, a thread can be put back. -/
theorem Placed.back (placed : L.Placed p V) (member : t ∈ V)
    (clear : ∀ u, u ≠ t → ∀ b, L.held (stepBack p t) t = some b → L.held p u ≠ some b) :
    L.Placed (stepBack p t) (V.filter fun u => 0 < stepBack p t u) where
  moved := by
    intro u
    rw [Finset.mem_filter]
    refine ⟨fun moved => ⟨?_, moved⟩, fun both => both.2⟩
    by_cases here : u = t
    · exact here ▸ member
    · rw [stepBack_of_ne here] at moved
      exact (placed.moved u).mp moved
  holds := by
    intro u found
    obtain ⟨inside, moved⟩ := Finset.mem_filter.mp found
    by_cases here : u = t
    · subst here
      rw [stepBack_self] at moved
      obtain ⟨a, b, -, before, -⟩ := placed.held_back member (by omega)
      rw [before]
      rfl
    · rw [held_stepBack_of_ne here]
      exact placed.holds u inside
  single := by
    intro u v a first second
    by_cases here : u = t <;> by_cases there : v = t
    · rw [here, there]
    · rw [here] at first
      rw [held_stepBack_of_ne there] at second
      exact absurd second (clear v there a first)
    · rw [there] at second
      rw [held_stepBack_of_ne here] at first
      exact absurd first (clear u here a second)
    · rw [held_stepBack_of_ne here] at first
      rw [held_stepBack_of_ne there] at second
      exact placed.single u v a first second

/-- From there it takes its last lock again. -/
theorem Placed.reached_of_back (placed : L.Placed p V) (member : t ∈ V)
    (reached : L.Reached (stepBack p t)) : L.Reached p := by
  have moved := (placed.moved t).mpr member
  obtain ⟨a, now⟩ := Option.isSome_iff_exists.mp (placed.holds t member)
  have next : L.lock t (stepBack p t t) = some a := by
    rw [stepBack_self, ← L.held_pos moved, now]
  have free : ∀ u, L.held (stepBack p t) u ≠ some a := by
    intro u holds
    by_cases here : u = t
    · subst here
      by_cases first : p u = 1
      · rw [L.held_zero (by rw [stepBack_self]; omega)] at holds
        cases holds
      · obtain ⟨a', b, now', before, differ⟩ := placed.held_back member (by omega)
        rw [before] at holds
        rw [now'] at now
        exact differ (Option.some.inj (now.trans holds.symm))
    · rw [held_stepBack_of_ne here] at holds
      exact here (placed.single u t a holds now)
  have again : Function.update (stepBack p t) t (stepBack p t t + 1) = p := by
    rw [stepBack, Function.update_idem, Function.update_self, Nat.sub_add_cancel moved,
      Function.update_eq_self]
  rw [← again]
  exact reached.take next free

/-- Threads `C` that each had before what another one of `C` has now, all put back at once. -/
def stepBackAll (p : ι → Nat) (C : Finset ι) : ι → Nat := fun t => if t ∈ C then p t - 1 else 0

theorem held_stepBackAll {C : Finset ι} (member : t ∈ C) :
    L.held (stepBackAll p C) t = L.held (stepBack p t) t := by
  apply L.held_congr
  rw [stepBackAll, if_pos member, stepBack_self]

/-- No thread can be put back alone: another one holds what it had before. -/
def Stuck (L : LockPaths ι β) (p : ι → Nat) (V : Finset ι) (next : ι → ι) : Prop :=
  ∀ t ∈ V, next t ∈ V ∧ next t ≠ t ∧ 1 < p t ∧
    ∃ b, L.held (stepBack p t) t = some b ∧ L.held p (next t) = some b

variable {next : ι → ι} {C : Finset ι}

theorem Placed.backAll (placed : L.Placed p V) (stuck : L.Stuck p V next) (part : C ⊆ V)
    (injective : Set.InjOn next C) : L.Placed (stepBackAll p C) C := by
  apply placed_of_holders
  · intro t absent
    exact if_neg absent
  · intro t member
    obtain ⟨-, -, -, b, before, -⟩ := stuck t (part member)
    exact ⟨b, (held_stepBackAll member).trans before⟩
  · intro t here u there a first second
    obtain ⟨-, -, -, b, before, now⟩ := stuck t (part here)
    obtain ⟨-, -, -, b', before', now'⟩ := stuck u (part there)
    rw [held_stepBackAll here, before] at first
    rw [held_stepBackAll there, before'] at second
    obtain rfl := Option.some.inj first
    obtain rfl := Option.some.inj second
    exact injective here there (placed.single _ _ _ now now')

/-- Put back at once, each thread of a cycle waits for the one that waited for it. -/
theorem Placed.blocked_backAll (placed : L.Placed p V) (stuck : L.Stuck p V next) (part : C ⊆ V)
    (some : C.Nonempty) (onto : C.image next = C) : L.Blocked (stepBackAll p C) C := by
  refine ⟨some, fun t member => ?_⟩
  obtain ⟨u, source, rfl⟩ := Finset.mem_image.mp (onto.symm ▸ member)
  obtain ⟨-, differ, -, b, before, now⟩ := stuck u (part source)
  have wants : L.lock (next u) (stepBackAll p C (next u)) = Option.some b := by
    rw [stepBackAll, if_pos (show next u ∈ C from member), ← now,
      L.held_pos ((placed.moved _).mpr (part member))]
  exact ⟨u, source, Ne.symm differ, b, wants, (held_stepBackAll source).trans before⟩

end

/-- What every thread of `V` does if none can be put back alone. -/
theorem Placed.exists_stuck {p : ι → Nat} {V : Finset ι} (placed : L.Placed p V)
    (none : ∀ t ∈ V, ¬∀ u, u ≠ t → ∀ b, L.held (stepBack p t) t = some b → L.held p u ≠ some b) :
    ∃ next, L.Stuck p V next := by
  have each : ∀ t, ∃ u, t ∈ V → u ∈ V ∧ u ≠ t ∧ 1 < p t ∧
      ∃ b, L.held (stepBack p t) t = some b ∧ L.held p u = some b := by
    intro t
    by_cases member : t ∈ V
    · have stays := none t member
      push Not at stays
      obtain ⟨u, other, b, before, now⟩ := stays
      refine ⟨u, fun _ => ⟨placed.mem_of_held now, other, ?_, b, before, now⟩⟩
      by_contra first
      rw [L.held_zero (by rw [stepBack_self]; omega)] at before
      cases before
    · exact ⟨t, fun inside => absurd inside member⟩
  choose next spec using each
  exact ⟨next, spec⟩

theorem Placed.sum_back {p : ι → Nat} {V : Finset ι} (placed : L.Placed p V) {t : ι} (member : t ∈ V) :
    ∑ u ∈ V.filter (0 < stepBack p t ·), stepBack p t u < ∑ u ∈ V, p u := by
  have moved := (placed.moved t).mpr member
  calc ∑ u ∈ V.filter (0 < stepBack p t ·), stepBack p t u
      ≤ ∑ u ∈ V, stepBack p t u := Finset.sum_le_sum_of_subset (Finset.filter_subset _ _)
    _ < ∑ u ∈ V, p u := by
      refine Finset.sum_lt_sum (fun u _ => ?_) ⟨t, member, by rw [stepBack_self]; omega⟩
      by_cases here : u = t
      · rw [here, stepBack_self]
        exact Nat.sub_le _ _
      · rw [stepBack_of_ne here]

theorem Placed.sum_backAll {p : ι → Nat} {V C : Finset ι} (placed : L.Placed p V) (part : C ⊆ V)
    (inhabited : C.Nonempty) : ∑ t ∈ C, stepBackAll p C t < ∑ t ∈ V, p t := by
  calc ∑ t ∈ C, stepBackAll p C t
      < ∑ t ∈ C, p t := by
        refine Finset.sum_lt_sum_of_nonempty inhabited fun t member => ?_
        have moved := (placed.moved t).mpr (part member)
        rw [stepBackAll, if_pos member]
        omega
    _ ≤ ∑ t ∈ V, p t := Finset.sum_le_sum_of_subset part

/-- Every placement is reached, or threads that wait for each other are. -/
theorem Placed.reached_or_blocked {p : ι → Nat} {V : Finset ι} (placed : L.Placed p V) :
    L.Reached p ∨ ∃ q W, L.Reached q ∧ L.Blocked q W := by
  induction size : ∑ t ∈ V, p t using Nat.strong_induction_on generalizing p V with
  | _ n ih =>
    subst size
    rcases V.eq_empty_or_nonempty with rfl | inhabited
    · left
      have start : p = fun _ => 0 := by
        funext t
        by_contra moved
        exact absurd ((placed.moved t).mp (Nat.pos_iff_ne_zero.mpr moved)) (Finset.notMem_empty t)
      rw [start]
      exact .start
    · by_cases alone :
          ∃ t ∈ V, ∀ u, u ≠ t → ∀ b, L.held (stepBack p t) t = some b → L.held p u ≠ some b
      · obtain ⟨t, member, clear⟩ := alone
        rcases ih _ (placed.sum_back member) (placed.back member clear) rfl with reached | found
        · exact Or.inl (placed.reached_of_back member reached)
        · exact Or.inr found
      · obtain ⟨next, stuck⟩ :=
          placed.exists_stuck fun t member clear => alone ⟨t, member, clear⟩
        obtain ⟨C, part, nonempty, onto, injective⟩ :=
          exists_permuted inhabited fun t member => (stuck t member).1
        rcases ih _ (placed.sum_backAll part nonempty) (placed.backAll stuck part injective) rfl
          with reached | found
        · exact Or.inr ⟨_, C, reached, placed.blocked_backAll stuck part nonempty onto⟩
        · exact Or.inr found

/-! ### Switches that close a cycle -/

variable (L) in
/-- Each thread of `V` takes a lock `old`, each another one, and asks next for a lock `new` that
some thread of `V` has as its `old` one. -/
structure Switching (V : Finset ι) (place : ι → Nat) (old new : ι → β) : Prop where
  taken : ∀ t ∈ V, L.lock t (place t) = some (old t)
  asked : ∀ t ∈ V, L.lock t (place t + 1) = some (new t)
  injective : Set.InjOn old V
  closed : ∀ t ∈ V, ∃ u ∈ V, old u = new t

/-- All of `V` with their old locks, nobody else moved. -/
def standing (V : Finset ι) (place : ι → Nat) : ι → Nat :=
  fun t => if t ∈ V then place t + 1 else 0

section
variable {V : Finset ι} {place : ι → Nat} {old new : ι → β} {t : ι}

theorem standing_of_mem (place : ι → Nat) (member : t ∈ V) : standing V place t = place t + 1 := if_pos member

theorem Switching.held (switching : L.Switching V place old new) (member : t ∈ V) :
    L.held (standing V place) t = some (old t) := by
  have stands := standing_of_mem place member
  rw [L.held_pos (by omega), stands, Nat.add_sub_cancel]
  exact switching.taken t member

theorem Switching.placed (switching : L.Switching V place old new) :
    L.Placed (standing V place) V := by
  apply placed_of_holders
  · intro t absent
    exact if_neg absent
  · intro t member
    exact ⟨old t, switching.held member⟩
  · intro t here u there a first second
    rw [switching.held here] at first
    rw [switching.held there] at second
    exact switching.injective here there (Option.some.inj (first.trans second.symm))

theorem Switching.blocked (switching : L.Switching V place old new) (inhabited : V.Nonempty) :
    L.Blocked (standing V place) V := by
  refine ⟨inhabited, fun t member => ?_⟩
  obtain ⟨u, there, same⟩ := switching.closed t member
  refine ⟨u, there, ?_, new t, ?_, ?_⟩
  · rintro rfl
    apply L.differs u (place u) (old u) (switching.taken u member)
    rw [switching.asked u member, same]
  · rw [standing_of_mem place member]
    exact switching.asked t member
  · rw [switching.held there, same]

/-- Switches that close a cycle block some threads, those of the cycle or others on the way. -/
theorem Switching.exists_blocked (switching : L.Switching V place old new)
    (inhabited : V.Nonempty) : ∃ q W, L.Reached q ∧ L.Blocked q W := by
  rcases switching.placed.reached_or_blocked with reached | found
  · exact ⟨_, V, reached, switching.blocked inhabited⟩
  · exact found

end

end LockPaths

end BandleCxl.Library
