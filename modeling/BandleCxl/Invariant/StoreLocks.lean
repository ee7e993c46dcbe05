import BandleCxl.Source.StoreLocks

/-!
Which mutexes a call on the shared store holds, and where in its operations it stands. Every
action gives one free mutex to one thread or takes one back from it.
-/
namespace BandleCxl.Invariant
open Library Source KVStore SharedStore

/-- The operations of a batch; the calls for one key have none. -/
def batch : ThreadCall → List ApplyOp
  | .single _ => []
  | .applyOpsInOrderProgressive ops _ _ => ops

def HoldsMutex : CallPc → Fin kNumShards → Prop
  | .guarded shard _, m => m = shard
  | .loop held _ _, m => held = some m
  | .assigning old op _ _, m => m = old ∨ m = op.shard
  | _, _ => False

/-- A batch holds the mutex of the operation before the one it stands at, which is on another
shard. -/
def Traverses (ops : List ApplyOp) : CallPc → Prop
  | .loop none rest _ => rest = ops
  | .loop (some held) rest _ => (∃ done last, ops = done ++ last :: rest ∧ last.shard = held) ∧
      ∀ op ∈ rest.head?, op.shard ≠ held
  | .assigning old op rest _ => (∃ done last, ops = done ++ last :: op :: rest ∧ last.shard = old) ∧
      op.shard ≠ old
  | _ => True

theorem traverses_start (call : ThreadCall) : Traverses (batch call) call.start := by
  cases call with
  | single call => trivial
  | applyOpsInOrderProgressive ops stride callback =>
    unfold ThreadCall.start
    dsimp only
    split
    · trivial
    · rfl

theorem not_holds_start (call : ThreadCall) (m : Fin kNumShards) : ¬HoldsMutex call.start m := by
  cases call with
  | single call => exact id
  | applyOpsInOrderProgressive ops stride callback =>
    unfold ThreadCall.start
    dsimp only
    split
    · exact id
    · exact nofun

theorem applyRun_rest (held : Fin kNumShards) (ops : List ApplyOp) (kv : KVStore)
    (progress : Progress) :
    (applyRun held ops kv progress).1 = ops.dropWhile fun op => op.shard = held := by
  induction ops generalizing kv progress with
  | nil => rfl
  | cons op rest ih =>
    unfold applyRun
    by_cases same : op.shard = held
    · rw [if_neg (not_not.mpr same), List.dropWhile_cons_of_pos (by simpa using same)]
      exact ih _ _
    · rw [if_pos same, List.dropWhile_cons_of_neg (by simpa using same)]

/-- What is left after the operations on one shard comes behind one of them. -/
theorem exists_last_of_shard {held : Fin kNumShards} {op : ApplyOp} (first : op.shard = held)
    (rest : List ApplyOp) : ∃ done last,
      op :: rest = done ++ last :: rest.dropWhile (fun x => x.shard = held) ∧ last.shard = held := by
  induction rest generalizing op with
  | nil => exact ⟨[], op, rfl, first⟩
  | cons x rest ih =>
    by_cases same : x.shard = held
    · obtain ⟨done, last, reads, last_shard⟩ := ih same
      refine ⟨op :: done, last, ?_, last_shard⟩
      rw [List.dropWhile_cons_of_pos (by simpa using same), reads, List.cons_append]
    · refine ⟨[], op, ?_, first⟩
      rw [List.dropWhile_cons_of_neg (by simpa using same), List.nil_append]

/-- After the operations on the shard of `op`, a batch has followed its list. -/
theorem traverses_applyRun {ops rest : List ApplyOp} {op : ApplyOp} (done : List ApplyOp)
    (reads : ops = done ++ op :: rest) (kv : KVStore) (progress progress' : Progress) :
    Traverses ops (.loop (some op.shard) (applyRun op.shard (op :: rest) kv progress).1 progress') := by
  rw [applyRun_rest, List.dropWhile_cons_of_pos (by simp)]
  constructor
  · obtain ⟨run, last, split, last_shard⟩ := exists_last_of_shard rfl rest
    refine ⟨done ++ run, last, ?_, last_shard⟩
    rw [reads, split, List.append_assoc]
  · intro x first
    have fails := List.head?_dropWhile_not (fun x => decide (x.shard = op.shard)) rest
    rw [Option.mem_def.mp first] at fails
    simpa using fails

/-- A thread takes a mutex it asked for that nobody owns. -/
structure Takes {ι : Type*} [DecidableEq ι] (hash : Bytes → Nat) (s s' : SharedStore ι) (t : ι)
    (m : Fin kNumShards) (pc : CallPc) : Prop where
  wants : wanted hash (s.pc t) = some m
  free : s.owner m = none
  owner : s'.owner = Function.update s.owner m (some t)
  holds : ∀ m', HoldsMutex pc m' ↔ HoldsMutex (s.pc t) m' ∨ m' = m

/-- A thread gives back a mutex that it holds. -/
structure Gives {ι : Type*} (s s' : SharedStore ι) (t : ι) (m : Fin kNumShards) (pc : CallPc) :
    Prop where
  held : HoldsMutex (s.pc t) m
  owner : s'.owner = Function.update s.owner m none
  holds : ∀ m', HoldsMutex pc m' ↔ HoldsMutex (s.pc t) m' ∧ m' ≠ m

section
variable {ι : Type*} [DecidableEq ι] {hash : Bytes → Nat} {calls : ι → ThreadCall}
  {s s' : SharedStore ι}

theorem lockStep_takes {t : ι} (along : Traverses (batch (calls t)) (s.pc t))
    (stepped : s.lockStep hash t = some s') :
    ∃ m pc, s'.pc = Function.update s.pc t pc ∧ Traverses (batch (calls t)) pc ∧
      Takes hash s s' t m pc := by
  unfold SharedStore.lockStep at stepped
  split at stepped
  · next call here =>
    dsimp only at stepped
    split at stepped
    · cases stepped
    · next free =>
      obtain rfl := Option.some.inj stepped
      refine ⟨_, _, rfl, trivial, ?_, Option.not_isSome_iff_eq_none.mp free, rfl, fun m' => ?_⟩
      · rw [here]
        rfl
      · rw [here]
        simp only [HoldsMutex, false_or]
  · next held op rest progress here =>
    split at stepped
    · cases stepped
    · next free =>
      have wants : wanted hash (s.pc t) = some op.shard := by
        rw [here]
        rfl
      rw [here] at along
      cases held with
      | none =>
        obtain rfl := Option.some.inj stepped
        refine ⟨_, _, rfl, traverses_applyRun [] ?_ _ _ _, wants,
          Option.not_isSome_iff_eq_none.mp free, rfl, fun m' => ?_⟩
        · exact along.symm
        · rw [here]
          simp only [HoldsMutex, reduceCtorEq, false_or, Option.some.injEq]
          exact eq_comm
      | some old =>
        obtain rfl := Option.some.inj stepped
        refine ⟨_, _, rfl, ⟨along.1, along.2 op rfl⟩, wants,
          Option.not_isSome_iff_eq_none.mp free, rfl, fun m' => ?_⟩
        rw [here]
        simp only [HoldsMutex, Option.some.injEq]
        exact or_congr eq_comm Iff.rfl
  · cases stepped

theorem unlockStep_gives {t : ι} (along : Traverses (batch (calls t)) (s.pc t))
    (stepped : s.unlockStep t = some s') :
    ∃ m pc, s'.pc = Function.update s.pc t pc ∧ Traverses (batch (calls t)) pc ∧
      Gives s s' t m pc := by
  unfold SharedStore.unlockStep at stepped
  split at stepped
  · next shard outcome here =>
    obtain rfl := Option.some.inj stepped
    refine ⟨shard, _, rfl, trivial, ?_, rfl, fun m' => ?_⟩
    · rw [here]
      exact rfl
    · rw [here]
      exact (and_not_self_iff _).symm
  · next old op rest progress here =>
    obtain rfl := Option.some.inj stepped
    rw [here] at along
    obtain ⟨⟨done, last, reads, -⟩, differ⟩ := along
    refine ⟨old, _, rfl, traverses_applyRun (done ++ [last]) ?_ _ _ _, ?_, rfl, fun m' => ?_⟩
    · rw [reads, List.append_assoc, List.singleton_append]
    · rw [here]
      exact Or.inl rfl
    · rw [here]
      simp only [HoldsMutex, Option.some.injEq]
      constructor
      · rintro rfl
        exact ⟨Or.inr rfl, differ⟩
      · rintro ⟨rfl | rfl, other⟩
        · exact absurd rfl other
        · rfl
  · next shard progress here =>
    obtain rfl := Option.some.inj stepped
    refine ⟨shard, _, rfl, trivial, ?_, rfl, fun m' => ?_⟩
    · rw [here]
      exact rfl
    · rw [here]
      simp only [HoldsMutex, Option.some.injEq, false_iff, not_and, not_not]
      exact Eq.symm
  · cases stepped

/-- A thread that asks for a mutex moves exactly when nobody owns it. -/
theorem waits_iff {t : ι} {m : Fin kNumShards} (wants : wanted hash (s.pc t) = some m) :
    (∀ s', s.lockStep hash t ≠ some s' ∧ s.unlockStep t ≠ some s') ↔ (s.owner m).isSome := by
  cases here : s.pc t with
  | entered call =>
    rw [here] at wants
    obtain rfl := Option.some.inj wants
    simp only [SharedStore.lockStep, SharedStore.unlockStep, here]
    split <;> simp_all
  | guarded shard outcome => simp [here, wanted] at wants
  | loop held rest progress =>
    cases rest with
    | nil => simp [here, wanted] at wants
    | cons op rest =>
      rw [here] at wants
      obtain rfl := Option.some.inj wants
      simp only [SharedStore.lockStep, SharedStore.unlockStep, here]
      split <;> cases held <;> simp_all
  | assigning old op rest progress => simp [here, wanted] at wants
  | returned outcome => simp [here, wanted] at wants

variable (calls) in
/-- A mutex is owned by the thread whose call holds it, and every batch follows its list. -/
structure Owned (s : SharedStore ι) : Prop where
  owner : ∀ m t, s.owner m = some t ↔ HoldsMutex (s.pc t) m
  along : ∀ t, Traverses (batch (calls t)) (s.pc t)

omit [DecidableEq ι] in
theorem Owned.initial (kv : KVStore) : Owned calls (.initial kv calls) where
  owner m t := iff_of_false nofun (not_holds_start (calls t) m)
  along t := traverses_start (calls t)

/-- The call of one thread moved, the others stand where they were. -/
theorem traverses_update {t : ι} {pc : CallPc} (owned : Owned calls s)
    (moved : s'.pc = Function.update s.pc t pc) (along : Traverses (batch (calls t)) pc) (u : ι) :
    Traverses (batch (calls u)) (s'.pc u) := by
  rw [moved]
  by_cases here : u = t
  · rw [here, Function.update_self]
    exact along
  · rw [Function.update_of_ne here]
    exact owned.along u

theorem Owned.takes {t : ι} {m : Fin kNumShards} {pc : CallPc} (owned : Owned calls s)
    (moved : s'.pc = Function.update s.pc t pc) (along : Traverses (batch (calls t)) pc)
    (takes : Takes hash s s' t m pc) : Owned calls s' where
  along := traverses_update owned moved along
  owner m' u := by
    rw [moved, takes.owner]
    have unowned : ¬HoldsMutex (s.pc u) m := by
      rw [← owned.owner, takes.free]
      exact nofun
    by_cases same : m' = m
    · rw [same, Function.update_self, Option.some.injEq]
      by_cases here : u = t
      · rw [here, Function.update_self, takes.holds]
        exact iff_of_true rfl (Or.inr rfl)
      · rw [Function.update_of_ne here]
        exact iff_of_false (Ne.symm here) unowned
    · rw [Function.update_of_ne same]
      by_cases here : u = t
      · rw [here, Function.update_self, takes.holds, or_iff_left same]
        exact owned.owner m' t
      · rw [Function.update_of_ne here]
        exact owned.owner m' u

theorem Owned.gives {t : ι} {m : Fin kNumShards} {pc : CallPc} (owned : Owned calls s)
    (moved : s'.pc = Function.update s.pc t pc) (along : Traverses (batch (calls t)) pc)
    (gives : Gives s s' t m pc) : Owned calls s' where
  along := traverses_update owned moved along
  owner m' u := by
    rw [moved, gives.owner]
    have only : HoldsMutex (s.pc u) m → u = t := by
      rw [← owned.owner]
      intro other
      exact Option.some.inj (other.symm.trans ((owned.owner m t).mpr gives.held))
    by_cases same : m' = m
    · rw [same, Function.update_self]
      by_cases here : u = t
      · rw [here, Function.update_self, gives.holds]
        exact iff_of_false nofun fun both => both.2 rfl
      · rw [Function.update_of_ne here]
        exact iff_of_false nofun fun held => here (only held)
    · rw [Function.update_of_ne same]
      by_cases here : u = t
      · rw [here, Function.update_self, gives.holds, and_iff_left same]
        exact owned.owner m' t
      · rw [Function.update_of_ne here]
        exact owned.owner m' u

theorem Owned.step {a : MutexAction ι} (owned : Owned calls s)
    (stepped : s.step hash a = some s') : Owned calls s' := by
  cases a with
  | lock t =>
    obtain ⟨m, pc, moved, along, takes⟩ := lockStep_takes (owned.along t) stepped
    exact owned.takes moved along takes
  | unlock t =>
    obtain ⟨m, pc, moved, along, gives⟩ := unlockStep_gives (owned.along t) stepped
    exact owned.gives moved along gives

theorem owned_of_reachable (reached : (sharedStore hash calls).Reachable s) : Owned calls s := by
  refine reached.invariant ?_ fun s a s' _ owned stepped => owned.step stepped
  rintro s ⟨kv, rfl⟩
  exact Owned.initial kv

end

end BandleCxl.Invariant
