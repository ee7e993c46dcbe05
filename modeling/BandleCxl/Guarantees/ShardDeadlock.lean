import BandleCxl.Library.HandOverHand
import BandleCxl.Invariant.StoreLocks

/-!
When calls on the shared store can wait for each other. A batch asks for the mutex of the next
shard while it holds that of the one before, so batches whose switches from shard to shard
close a cycle can be brought to a state in which none of them moves again. Without such a
cycle no schedule does that.
-/
namespace BandleCxl.Guarantees
open Library Source Invariant KVStore SharedStore

/-- A call with an operation on one shard directly before one on another shard. -/
def Switches (call : ThreadCall) (old new : Fin kNumShards) : Prop :=
  ∃ done a b rest, batch call = done ++ a :: b :: rest ∧ a.shard = old ∧ b.shard = new ∧ old ≠ new

/-- Threads with a switch each: no two of them from one shard, and each to a shard that
another one switches from. -/
def Entangled {ι : Type*} (calls : ι → ThreadCall) : Prop :=
  ∃ (U : Set ι) (old new : ι → Fin kNumShards), U.Nonempty ∧
    (∀ t ∈ U, Switches (calls t) (old t) (new t)) ∧ Set.InjOn old U ∧
    ∀ t ∈ U, ∃ u ∈ U, old u = new t

section
variable {ι : Type*} {hash : Bytes → Nat} {calls : ι → ThreadCall}

/-! ### In a deadlock -/

/-- Nobody outside a deadlocked set can help it. -/
theorem deadlocked_step [DecidableEq ι] {s s' : SharedStore ι} {W : Set ι} {a : MutexAction ι}
    (owned : Owned calls s) (deadlocked : Deadlocked hash s W) (stepped : s.step hash a = some s') :
    Deadlocked hash s' W ∧ ∀ t ∈ W, s'.pc t = s.pc t := by
  have stuck : ∀ t ∈ W, s.lockStep hash t ≠ some s' ∧ s.unlockStep t ≠ some s' := by
    intro t member
    obtain ⟨u, -, -, m, wants, owner⟩ := deadlocked.2 t member
    exact (waits_iff wants).mpr (Option.isSome_of_mem owner) s'
  obtain ⟨t, outside, m, pc, moved, kept⟩ : ∃ t ∉ W, ∃ m pc, s'.pc = Function.update s.pc t pc ∧
      ∀ m', ∀ u ∈ W, s.owner m' = some u → s'.owner m' = some u := by
    cases a with
    | lock t =>
      obtain ⟨m, pc, moved, -, takes⟩ := lockStep_takes (owned.along t) stepped
      refine ⟨t, fun member => (stuck t member).1 stepped, m, pc, moved, fun m' u _ owner => ?_⟩
      have other : m' ≠ m := by
        rintro rfl
        rw [takes.free] at owner
        cases owner
      rw [takes.owner, Function.update_of_ne other, owner]
    | unlock t =>
      obtain ⟨m, pc, moved, -, gives⟩ := unlockStep_gives (owned.along t) stepped
      have outside : t ∉ W := fun member => (stuck t member).2 stepped
      refine ⟨t, outside, m, pc, moved, fun m' u inside owner => ?_⟩
      have other : m' ≠ m := by
        rintro rfl
        rw [(owned.owner m' t).mpr gives.held] at owner
        exact outside (Option.some.inj owner ▸ inside)
      rw [gives.owner, Function.update_of_ne other, owner]
  have still : ∀ u ∈ W, s'.pc u = s.pc u := by
    intro u inside
    rw [moved, Function.update_of_ne]
    rintro rfl
    exact outside inside
  refine ⟨⟨deadlocked.1, fun u inside => ?_⟩, still⟩
  obtain ⟨v, member, other, m', wants, owner⟩ := deadlocked.2 u inside
  refine ⟨v, member, other, m', ?_, kept m' v member owner⟩
  rw [still u inside, wants]

/-- After a deadlock no thread of it returns, whatever the others do. -/
theorem deadlocked_run [DecidableEq ι] {s s' : SharedStore ι} {W : Set ι}
    (schedule : List (MutexAction ι)) (reached : (sharedStore hash calls).Reachable s) (deadlocked : Deadlocked hash s W)
    (ran : (sharedStore hash calls).run s schedule = some s') : ∀ t ∈ W, s'.pc t = s.pc t := by
  induction schedule generalizing s with
  | nil =>
    cases ran
    exact fun t _ => rfl
  | cons a rest ih =>
    obtain ⟨middle, stepped, ran⟩ := Option.bind_eq_some_iff.mp ran
    obtain ⟨deadlocked', still⟩ :=
      deadlocked_step (owned_of_reachable reached) deadlocked stepped
    intro t member
    rw [ih (.next a reached stepped) deadlocked' ran t member, still t member]

/-! ### Without a cycle -/

/-- A thread that waits and holds a mutex is a batch at a switch. -/
theorem switches_of_waiting {call : ThreadCall} {pc : CallPc} {held next : Fin kNumShards}
    (along : Traverses (batch call) pc) (wants : wanted hash pc = some next)
    (holds : HoldsMutex pc held) : Switches call held next := by
  cases pc with
  | loop owned rest progress =>
    cases holds
    cases rest with
    | nil => cases wants
    | cons op rest =>
      cases wants
      obtain ⟨⟨done, last, reads, last_shard⟩, differ⟩ := along
      exact ⟨done, last, op, rest, reads, last_shard, rfl, (differ op rfl).symm⟩
  | entered call => cases holds
  | guarded shard outcome => cases wants
  | assigning old op rest progress => cases wants
  | returned outcome => cases wants

/-- While it waits, a thread holds one mutex at most. -/
theorem holds_one_of_waiting {pc : CallPc} {m m' next : Fin kNumShards}
    (wants : wanted hash pc = some next) (first : HoldsMutex pc m) (second : HoldsMutex pc m') : m = m' := by
  cases pc with
  | loop owned rest progress => exact Option.some.inj (first.symm.trans second)
  | entered call => cases first
  | guarded shard outcome => cases wants
  | assigning old op rest progress => cases wants
  | returned outcome => cases wants

theorem entangled_of_deadlocked {s : SharedStore ι} {W : Set ι} (owned : Owned calls s)
    (deadlocked : Deadlocked hash s W) : Entangled calls := by
  classical
  obtain ⟨⟨t₀, member₀⟩, waits⟩ := deadlocked
  have wants : ∀ t, ∃ m, t ∈ W → wanted hash (s.pc t) = some m ∧ ∃ u ∈ W, HoldsMutex (s.pc u) m := by
    intro t
    by_cases member : t ∈ W
    · obtain ⟨u, other, -, m, asks, owner⟩ := waits t member
      exact ⟨m, fun _ => ⟨asks, u, other, (owned.owner m u).mp owner⟩⟩
    · exact ⟨⟨0, by decide⟩, fun inside => absurd inside member⟩
  choose new asks using wants
  have holds : ∀ t, ∃ m, (∃ m', HoldsMutex (s.pc t) m') → HoldsMutex (s.pc t) m := by
    intro t
    by_cases some_held : ∃ m', HoldsMutex (s.pc t) m'
    · exact ⟨some_held.choose, fun _ => some_held.choose_spec⟩
    · exact ⟨⟨0, by decide⟩, fun held => absurd held some_held⟩
  choose old has using holds
  refine ⟨{t | t ∈ W ∧ ∃ m, HoldsMutex (s.pc t) m}, old, new, ?_, ?_, ?_, ?_⟩
  · -- Somebody holds what the first thread waits for.
    obtain ⟨-, u, member, held⟩ := asks t₀ member₀
    exact ⟨u, member, _, held⟩
  · rintro t ⟨member, held⟩
    exact switches_of_waiting (owned.along t) (asks t member).1 (has t held)
  · rintro t ⟨-, held⟩ u ⟨-, held'⟩ same
    have first := (owned.owner _ t).mpr (has t held)
    have second := (owned.owner _ u).mpr (has u held')
    rw [same, second] at first
    exact (Option.some.inj first).symm
  · rintro t ⟨member, -⟩
    obtain ⟨-, u, inside, held⟩ := asks t member
    exact ⟨u, ⟨inside, _, held⟩,
      holds_one_of_waiting (asks u inside).1 (has u ⟨_, held⟩) held⟩

/-! ### With a cycle -/

/-- The operations after those on the first shard. -/
def advance : List ApplyOp → List ApplyOp
  | [] => []
  | op :: rest => rest.dropWhile fun x => x.shard = op.shard

/-- The shards a batch locks in turn. -/
def lockAt (ops : List ApplyOp) (i : Nat) : Option (Fin kNumShards) :=
  (advance^[i] ops).head?.map ApplyOp.shard

theorem lockAt_succ (ops : List ApplyOp) (i : Nat) :
    lockAt ops (i + 1) = (advance (advance^[i] ops)).head?.map ApplyOp.shard := by
  rw [lockAt, Function.iterate_succ_apply']

theorem advance_head_ne {op : ApplyOp} {rest : List ApplyOp} :
    (advance (op :: rest)).head?.map ApplyOp.shard ≠ some op.shard := by
  intro same
  obtain ⟨x, first, shard⟩ := Option.map_eq_some_iff.mp same
  have fails := List.head?_dropWhile_not (fun x => decide (x.shard = op.shard)) rest
  rw [advance] at first
  rw [first] at fails
  exact absurd shard (by simpa using fails)

theorem lockAt_eq_none {ops : List ApplyOp} {i : Nat} : lockAt ops i = none ↔ advance^[i] ops = [] := by
  rw [lockAt, Option.map_eq_none_iff, List.head?_eq_none_iff]

theorem lockAt_eq_some {ops : List ApplyOp} {i : Nat} {m : Fin kNumShards}
    (locks : lockAt ops i = some m) : ∃ op rest, advance^[i] ops = op :: rest ∧ op.shard = m := by
  cases left : advance^[i] ops with
  | nil =>
    rw [lockAt_eq_none.mpr left] at locks
    cases locks
  | cons op rest =>
    refine ⟨op, rest, rfl, ?_⟩
    rw [lockAt, left] at locks
    exact Option.some.inj locks

theorem lockAt_nil (i : Nat) : lockAt [] i = none := by
  rw [lockAt_eq_none, Function.iterate_fixed rfl]

theorem batch_ne_nil_of_lockAt {ops : List ApplyOp} {i : Nat} {m : Fin kNumShards}
    (locks : lockAt ops i = some m) : ops ≠ [] := by
  rintro rfl
  rw [lockAt_nil] at locks
  cases locks

variable (calls) in
def shardPaths : LockPaths ι (Fin kNumShards) where
  lock t i := lockAt (batch (calls t)) i
  ended t i done := by
    rw [lockAt_succ, lockAt_eq_none.mp done]
    rfl
  differs t i m locks := by
    obtain ⟨op, rest, left, rfl⟩ := lockAt_eq_some locks
    rw [lockAt_succ, left]
    exact advance_head_ne

theorem advance_cons_of_eq {a b : ApplyOp} (rest : List ApplyOp) (same : a.shard = b.shard) :
    advance (a :: b :: rest) = advance (b :: rest) := by
  rw [advance, advance, List.dropWhile_cons_of_pos (by simpa using same.symm), same]

theorem advance_cons_of_ne {a b : ApplyOp} (rest : List ApplyOp) (differ : a.shard ≠ b.shard) :
    advance (a :: b :: rest) = b :: rest := by
  rw [advance, List.dropWhile_cons_of_neg (by simpa using differ.symm)]

/-- A batch comes to each of its switches. -/
theorem exists_lockAt_switch (done : List ApplyOp) {a b : ApplyOp} (rest : List ApplyOp)
    (differ : a.shard ≠ b.shard) : ∃ i, lockAt (done ++ a :: b :: rest) i = some a.shard ∧
      lockAt (done ++ a :: b :: rest) (i + 1) = some b.shard := by
  induction done with
  | nil =>
    refine ⟨0, rfl, ?_⟩
    rw [lockAt_succ, Function.iterate_zero_apply, List.nil_append, advance_cons_of_ne rest differ]
    rfl
  | cons op done ih =>
    obtain ⟨i, first, second⟩ := ih
    obtain ⟨c, tail, split⟩ : ∃ c tail, done ++ a :: b :: rest = c :: tail :=
      List.exists_cons_of_ne_nil (by simp)
    rw [split] at first second
    rw [List.cons_append, split]
    by_cases same : op.shard = c.shard
    · -- The first two operations are done under one lock, so both lists go on alike.
      have later : ∀ j, lockAt (op :: c :: tail) (j + 1) = lockAt (c :: tail) (j + 1) := by
        intro j
        rw [lockAt, lockAt, Function.iterate_succ_apply, Function.iterate_succ_apply,
          advance_cons_of_eq tail same]
      refine ⟨i, ?_, (later i).trans second⟩
      cases i with
      | zero => exact (congrArg some same).trans first
      | succ j => exact (later j).trans first
    · have later : ∀ j, lockAt (op :: c :: tail) (j + 1) = lockAt (c :: tail) j := by
        intro j
        rw [lockAt, lockAt, Function.iterate_succ_apply, advance_cons_of_ne tail same]
      exact ⟨i + 1, (later i).trans first, (later (i + 1)).trans second⟩

variable (calls) in
/-- Every batch stands where its place on its path says, and no other call has begun. -/
structure Stands (p : ι → Nat) (s : SharedStore ι) : Prop where
  loop : ∀ t, batch (calls t) ≠ [] → ∃ progress,
    s.pc t = .loop ((shardPaths calls).held p t) (advance^[p t] (batch (calls t))) progress
  start : ∀ t, batch (calls t) = [] → s.pc t = (calls t).start

theorem stands_initial (kv : KVStore) : Stands calls (fun _ => 0) (.initial kv calls) where
  start _ _ := rfl
  loop t inhabited := by
    cases call : calls t with
    | single key =>
      rw [call] at inhabited
      exact absurd rfl inhabited
    | applyOpsInOrderProgressive ops stride callback =>
      rw [call] at inhabited
      have some_op : ¬ops.length = 0 := fun zero => inhabited (List.length_eq_zero_iff.mp zero)
      refine ⟨{ stride := stride, report := callback && stride != 0 }, ?_⟩
      have free : (shardPaths calls).held (fun _ => 0) t = none := LockPaths.held_zero _ rfl
      have began : (SharedStore.initial kv calls).pc t = (calls t).start := rfl
      rw [began, free, call, ThreadCall.start, if_neg some_op]
      rfl

/-- In such a state the owners of the mutexes are read off the paths. -/
theorem Stands.owner_iff {p : ι → Nat} {s : SharedStore ι} (stands : Stands calls p s)
    (owned : Owned calls s) {m : Fin kNumShards} {t : ι} :
    s.owner m = some t ↔ (shardPaths calls).held p t = some m := by
  rw [owned.owner]
  by_cases empty : batch (calls t) = []
  · rw [stands.start t empty]
    refine iff_of_false (not_holds_start _ m) fun held => ?_
    by_cases moved : p t = 0
    · rw [LockPaths.held_zero _ moved] at held
      cases held
    · rw [LockPaths.held_pos _ (Nat.pos_of_ne_zero moved)] at held
      exact batch_ne_nil_of_lockAt held empty
  · obtain ⟨progress, here⟩ := stands.loop t empty
    rw [here]
    exact Iff.rfl

theorem deadlocked_of_blocked {p : ι → Nat} {s : SharedStore ι} {W : Set ι}
    (stands : Stands calls p s) (owned : Owned calls s) (blocked : (shardPaths calls).Blocked p W) :
    Deadlocked hash s W := by
  refine ⟨blocked.1, fun t member => ?_⟩
  obtain ⟨u, inside, other, m, next, held⟩ := blocked.2 t member
  refine ⟨u, inside, other, m, ?_, (stands.owner_iff owned).mpr held⟩
  obtain ⟨op, rest, left, rfl⟩ := lockAt_eq_some next
  obtain ⟨progress, here⟩ := stands.loop t (batch_ne_nil_of_lockAt next)
  rw [here, left]
  rfl

variable [DecidableEq ι]

/-- A batch whose next mutex is free takes it, and lets go of the one it had. -/
theorem exists_taken {s : SharedStore ι} (reached : (sharedStore hash calls).Reachable s) {t : ι}
    {held : Option (Fin kNumShards)} {op : ApplyOp} {rest : List ApplyOp} {progress : Progress}
    (here : s.pc t = .loop held (op :: rest) progress) (free : s.owner op.shard = none) :
    ∃ s', (sharedStore hash calls).Reachable s' ∧ ∃ progress',
      s'.pc = Function.update s.pc t (.loop (some op.shard) (advance (op :: rest)) progress') := by
  have left : ∀ kv : KVStore,
      (applyRun op.shard (op :: rest) kv progress).1 = advance (op :: rest) := by
    intro kv
    rw [applyRun_rest, List.dropWhile_cons_of_pos (by simp), advance]
  cases held with
  | none =>
    have locked : s.step hash (.lock t) =
        some ((s.setOwner op.shard (some t)).resume t op rest progress) := by
      simp [SharedStore.step, SharedStore.lockStep, here, free]
    refine ⟨_, .next (.lock t) reached locked, (applyRun op.shard (op :: rest) s.kv progress).2.2, ?_⟩
    rw [← left s.kv]
    rfl
  | some old =>
    have locked : s.step hash (.lock t) =
        some ((s.setOwner op.shard (some t)).setPc t (.assigning old op rest progress)) := by
      simp [SharedStore.step, SharedStore.lockStep, here, free]
    let middle := (s.setOwner op.shard (some t)).setPc t (.assigning old op rest progress)
    have there : middle.pc t = .assigning old op rest progress := Function.update_self t _ s.pc
    have unlocked : middle.step hash (.unlock t) =
        some ((middle.setOwner old none).resume t op rest progress) := by
      simp [SharedStore.step, SharedStore.unlockStep, there]
    refine ⟨_, .next (.unlock t) (.next (.lock t) reached locked) unlocked,
      (applyRun op.shard (op :: rest) s.kv progress).2.2, ?_⟩
    rw [← left s.kv]
    exact Function.update_idem _ _ s.pc

theorem Stands.take {p : ι → Nat} {s s' : SharedStore ι} (stands : Stands calls p s) {t : ι}
    {progress : Progress} (inhabited : batch (calls t) ≠ [])
    (moved : s'.pc = Function.update s.pc t (.loop ((shardPaths calls).lock t (p t))
      (advance (advance^[p t] (batch (calls t)))) progress)) :
    Stands calls (Function.update p t (p t + 1)) s' where
  start u empty := by
    have other : u ≠ t := fun same => inhabited (same ▸ empty)
    rw [moved, Function.update_of_ne other]
    exact stands.start u empty
  loop u some_op := by
    by_cases same : u = t
    · subst same
      refine ⟨progress, ?_⟩
      rw [moved, Function.update_self, LockPaths.held_pos _ (by rw [Function.update_self]; omega),
        Function.update_self, Nat.add_sub_cancel, Function.iterate_succ_apply']
    · obtain ⟨progress', here⟩ := stands.loop u some_op
      refine ⟨progress', ?_⟩
      rw [moved, Function.update_of_ne same, here, Function.update_of_ne same,
        LockPaths.held_congr _ (Function.update_of_ne same _ p)]

/-- Every placement that the paths reach is one of the store. -/
theorem exists_stands {p : ι → Nat} (reached : (shardPaths calls).Reached p) :
    ∃ s, (sharedStore hash calls).Reachable s ∧ Stands calls p s := by
  induction reached with
  | start => exact ⟨_, .start ⟨KVStore.empty, rfl⟩, stands_initial KVStore.empty⟩
  | @take p t m reached next free ih =>
    obtain ⟨s, reachable, stands⟩ := ih
    obtain ⟨op, rest, left, rfl⟩ := lockAt_eq_some next
    have inhabited : batch (calls t) ≠ [] := batch_ne_nil_of_lockAt next
    obtain ⟨progress, here⟩ := stands.loop t inhabited
    rw [left] at here
    have unowned : s.owner op.shard = none := by
      cases owner : s.owner op.shard with
      | none => rfl
      | some u =>
        exact absurd ((stands.owner_iff (owned_of_reachable reachable)).mp owner) (free u)
    obtain ⟨s', reachable', progress', moved⟩ := exists_taken reachable here unowned
    rw [← next, ← left] at moved
    exact ⟨s', reachable', stands.take inhabited moved⟩

omit [DecidableEq ι] in
theorem exists_switching (entangled : Entangled calls) :
    ∃ V place old new, V.Nonempty ∧ (shardPaths calls).Switching V place old new := by
  classical
  obtain ⟨U, old, new, inhabited, switches, injective, closed⟩ := entangled
  have finite : U.Finite := Set.Finite.of_injOn (Set.mapsTo_univ old U) injective Set.finite_univ
  have places : ∀ t, ∃ i, t ∈ U → lockAt (batch (calls t)) i = some (old t) ∧
      lockAt (batch (calls t)) (i + 1) = some (new t) := by
    intro t
    by_cases member : t ∈ U
    · obtain ⟨done, a, b, rest, reads, first, second, differ⟩ := switches t member
      rw [← first, ← second] at differ ⊢
      obtain ⟨i, taken, asked⟩ := exists_lockAt_switch done rest differ
      rw [reads]
      exact ⟨i, fun _ => ⟨taken, asked⟩⟩
    · exact ⟨0, fun inside => absurd inside member⟩
  choose place at_place using places
  refine ⟨finite.toFinset, place, old, new, finite.toFinset_nonempty.mpr inhabited, ?_⟩
  constructor
  · exact fun t member => (at_place t (finite.mem_toFinset.mp member)).1
  · exact fun t member => (at_place t (finite.mem_toFinset.mp member)).2
  · rw [finite.coe_toFinset]
    exact injective
  · intro t member
    obtain ⟨u, there, same⟩ := closed t (finite.mem_toFinset.mp member)
    exact ⟨u, finite.mem_toFinset.mpr there, same⟩

theorem exists_deadlocked (entangled : Entangled calls) :
    ∃ s, (sharedStore hash calls).Reachable s ∧ ∃ W, Deadlocked hash s W := by
  obtain ⟨V, place, old, new, inhabited, switching⟩ := exists_switching entangled
  obtain ⟨q, W, reached, waits⟩ := switching.exists_blocked inhabited
  obtain ⟨s, reachable, stands⟩ := exists_stands reached
  exact ⟨s, reachable, W, deadlocked_of_blocked stands (owned_of_reachable reachable) waits⟩

/-- Entangled calls can be brought to a state from which some of them never return, whatever
is scheduled after it. -/
theorem entangled_never_return (hash : Bytes → Nat) (entangled : Entangled calls) :
    ∃ s, (sharedStore hash calls).Reachable s ∧ ∃ W : Set ι, W.Nonempty ∧
      ∀ schedule s', (sharedStore hash calls).run s schedule = some s' →
        ∀ t ∈ W, ∀ outcome, s'.pc t ≠ .returned outcome := by
  obtain ⟨s, reached, W, deadlocked⟩ : ∃ s, (sharedStore hash calls).Reachable s ∧
      ∃ W, Deadlocked hash s W := exists_deadlocked entangled
  refine ⟨s, reached, W, deadlocked.1, fun schedule s' ran t member outcome returned => ?_⟩
  obtain ⟨-, -, -, m, wants, -⟩ := deadlocked.2 t member
  rw [← deadlocked_run schedule reached deadlocked ran t member, returned] at wants
  cases wants

/-- No schedule leads into a deadlock exactly if the calls are not entangled. -/
theorem deadlock_free_iff (hash : Bytes → Nat) (calls : ι → ThreadCall) :
    (∀ s, (sharedStore hash calls).Reachable s → ¬∃ W, Deadlocked hash s W) ↔
      ¬Entangled calls := by
  constructor
  · intro never entangled
    obtain ⟨s, reached, deadlock⟩ := exists_deadlocked entangled
    exact never s reached deadlock
  · rintro free s reached ⟨W, deadlocked⟩
    exact free (entangled_of_deadlocked (owned_of_reachable reached) deadlocked)

end

/-- Two batches over the same two keys in opposite orders, on shards 1 and 2. -/
def crossedBatches (reversed : Bool) : ThreadCall :=
  let op (key : Bytes) : ApplyOp := ⟨opP, shardIdx List.length key, key, [0x78]⟩
  .applyOpsInOrder (if reversed then [op [0x61, 0x62], op [0x61]] else [op [0x61], op [0x61, 0x62]])

/-- Each takes its first mutex, and then waits for the other. -/
theorem crossed_batches_deadlock :
    ¬∀ s, (sharedStore List.length crossedBatches).Reachable s →
      ¬∃ W, Deadlocked List.length s W := by
  intro never
  have ran : ((sharedStore List.length crossedBatches).run
      (.initial KVStore.empty crossedBatches) [.lock false, .lock true]).isSome := rfl
  obtain ⟨s, ran⟩ := Option.isSome_iff_exists.mp ran
  refine never s (.of_run _ (.start ⟨_, rfl⟩) ran) ⟨Set.univ, Set.univ_nonempty, fun t _ => ?_⟩
  obtain rfl := Option.some.inj ran
  refine ⟨!t, trivial, by cases t <;> decide, ?_⟩
  cases t with
  | false => exact ⟨⟨2, by decide⟩, rfl, rfl⟩
  | true => exact ⟨⟨1, by decide⟩, rfl, rfl⟩

end BandleCxl.Guarantees
