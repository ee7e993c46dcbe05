import BandleCxl.Library.Transition
import BandleCxl.Source.KVStore

/-!
Calls of `KVStore` (`src/kv_store.cpp`) made at the same time by any number of threads. One
action locks or unlocks the mutex of one shard, and carries out what its thread does up to its
next operation on a mutex; a thread whose mutex is taken does not move.

The single calls hold one mutex in a `lock_guard`. `apply_ops_in_order_progressive` assigns
`held_lock = std::unique_lock(shards_[shard_idx].mu)`: the right-hand side locks the new mutex,
and only then does the assignment unlock the one held before.
-/
namespace BandleCxl.Source
open Library

namespace KVStore

/-- The calls for one key. -/
inductive KeyCall where
  | put (key value : Bytes)
  | putView (key value : Bytes)
  | get (key : Bytes)
  | update (key value : Bytes)
  | erase (key : Bytes)
  | eraseKey (key : Bytes)

def KeyCall.key : KeyCall → Bytes
  | put key _ | putView key _ | get key | update key _ | erase key | eraseKey key => key

inductive ThreadCall where
  | single (call : KeyCall)
  /-- `callback` says whether a callback is given -/
  | applyOpsInOrderProgressive (ops : List ApplyOp) (stride : Nat) (callback : Bool)

def ThreadCall.applyOpsInOrder (ops : List ApplyOp) : ThreadCall :=
  .applyOpsInOrderProgressive ops 0 false

/-- What a call returns, or reports to its callback. -/
inductive Outcome where
  | nothing
  | value (value : Bytes)
  | changed (changed : Bool)
  | reported (applied : List Nat)

/-- The body of a single call, under its `lock_guard`. -/
def KeyCall.run (hash : Bytes → Nat) (kv : KVStore) : KeyCall → KVStore × Outcome
  | put key value => (kv.put hash key value, .nothing)
  | putView key value => (kv.putView hash key value, .nothing)
  | get key => (kv, .value (kv.get hash key))
  | update key value => ((kv.update hash key value).1, .changed (kv.update hash key value).2)
  | erase key => ((kv.erase hash key).1, .changed (kv.erase hash key).2)
  | eraseKey key => ((kv.eraseKey hash key).1, .changed (kv.eraseKey hash key).2)

/-- The locals of `apply_ops_in_order_progressive` that decide what the callback sees. -/
structure Progress where
  stride : Nat
  report : Bool
  applied : Nat := 0
  since : Nat := 0
  reports : List Nat := []

/-- After an operation. -/
def Progress.count (p : Progress) : Progress :=
  if p.report then
    if p.since + 1 ≥ p.stride then
      { p with applied := p.applied + 1, since := 0, reports := p.reports ++ [p.applied + 1] }
    else { p with applied := p.applied + 1, since := p.since + 1 }
  else { p with applied := p.applied + 1 }

/-- After the loop. -/
def Progress.finish (p : Progress) : List Nat :=
  if p.report ∧ p.since ≠ 0 then p.reports ++ [p.applied] else p.reports

/-- The loop up to the next operation with `shard_idx != held_shard`: the operations left, and
what the others did. -/
def applyRun (held : Fin kNumShards) : List ApplyOp → KVStore → Progress →
    List ApplyOp × KVStore × Progress
  | [], kv, progress => ([], kv, progress)
  | op :: rest, kv, progress =>
    if op.shard ≠ held then (op :: rest, kv, progress)
    else applyRun held rest (kv.applyOp op) progress.count

/-- Where a call stands before its next operation on a mutex. -/
inductive CallPc where
  /-- a single call before its `lock_guard` -/
  | entered (call : KeyCall)
  /-- a single call at its return, with the mutex of `shard` held -/
  | guarded (shard : Fin kNumShards) (outcome : Outcome)
  /-- the loop at an operation on another shard than the one held, or after its end -/
  | loop (held : Option (Fin kNumShards)) (rest : List ApplyOp) (progress : Progress)
  /-- the new mutex is locked for `op`, `held_lock` still owns the one of `held` -/
  | assigning (held : Fin kNumShards) (op : ApplyOp) (rest : List ApplyOp) (progress : Progress)
  | returned (outcome : Outcome)

def ThreadCall.start : ThreadCall → CallPc
  | single call => .entered call
  | applyOpsInOrderProgressive ops stride callback =>
    if ops.length = 0 then .returned (.reported [])
    else .loop none ops { stride := stride, report := callback && stride != 0 }

end KVStore

open KVStore

/-- The store, which thread owns the mutex of each shard, and the call of each thread. -/
structure SharedStore (ι : Type*) where
  kv : KVStore
  owner : Fin kNumShards → Option ι
  pc : ι → CallPc

inductive MutexAction (ι : Type*) where
  | lock (t : ι)
  | unlock (t : ι)

namespace SharedStore

variable {ι : Type*} [DecidableEq ι] (hash : Bytes → Nat)

/-- Apply operations on the shard of `op`, whose mutex is held now, from `op` on. -/
def resume (s : SharedStore ι) (t : ι) (op : ApplyOp) (rest : List ApplyOp)
    (progress : Progress) : SharedStore ι :=
  let out := applyRun op.shard (op :: rest) s.kv progress
  { s with kv := out.2.1, pc := Function.update s.pc t (.loop (some op.shard) out.1 out.2.2) }

def setOwner (s : SharedStore ι) (m : Fin kNumShards) (owner : Option ι) : SharedStore ι :=
  { s with owner := Function.update s.owner m owner }

def setPc (s : SharedStore ι) (t : ι) (pc : CallPc) : SharedStore ι :=
  { s with pc := Function.update s.pc t pc }

def lockStep (s : SharedStore ι) (t : ι) : Option (SharedStore ι) :=
  match s.pc t with
  | .entered call =>
    let shard := shardIdx hash call.key
    if (s.owner shard).isSome then none
    else
      let out := call.run hash s.kv
      some (({ s with kv := out.1 }.setOwner shard (some t)).setPc t (.guarded shard out.2))
  | .loop held (op :: rest) progress =>
    if (s.owner op.shard).isSome then none
    else
      let locked := s.setOwner op.shard (some t)
      match held with
      | none => some (locked.resume t op rest progress)
      | some old => some (locked.setPc t (.assigning old op rest progress))
  | _ => none

def unlockStep (s : SharedStore ι) (t : ι) : Option (SharedStore ι) :=
  match s.pc t with
  | .guarded shard outcome => some ((s.setOwner shard none).setPc t (.returned outcome))
  | .assigning old op rest progress => some ((s.setOwner old none).resume t op rest progress)
  | .loop (some shard) [] progress =>
    some ((s.setOwner shard none).setPc t (.returned (.reported progress.finish)))
  | _ => none

def step (s : SharedStore ι) : MutexAction ι → Option (SharedStore ι)
  | .lock t => s.lockStep hash t
  | .unlock t => s.unlockStep t

def initial (kv : KVStore) (calls : ι → ThreadCall) : SharedStore ι where
  kv := kv
  owner _ := none
  pc t := (calls t).start

end SharedStore

/-- Every thread makes one call, on a store with any content. -/
def sharedStore {ι : Type*} [DecidableEq ι] (hash : Bytes → Nat) (calls : ι → ThreadCall) :
    TransitionSystem (SharedStore ι) (MutexAction ι) where
  init s := ∃ kv, s = .initial kv calls
  step := SharedStore.step hash

namespace SharedStore

variable {ι : Type*}

/-- The mutex a thread asks for next. -/
def wanted (hash : Bytes → Nat) : CallPc → Option (Fin kNumShards)
  | .entered call => some (shardIdx hash call.key)
  | .loop _ (op :: _) _ => some op.shard
  | _ => none

/-- A set of threads each of which waits for a mutex that another thread of the set owns. A
thread that waits has not returned. -/
def Deadlocked (hash : Bytes → Nat) (s : SharedStore ι) (W : Set ι) : Prop :=
  W.Nonempty ∧ ∀ t ∈ W, ∃ u ∈ W, u ≠ t ∧ ∃ m, wanted hash (s.pc t) = some m ∧ s.owner m = some u

end SharedStore

end BandleCxl.Source
