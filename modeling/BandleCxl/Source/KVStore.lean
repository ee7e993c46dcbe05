import BandleCxl.Source.Message

/-!
`KVStore` (`src/kv_store.cpp`): 256 shards, each an unordered map. A shard map
is its lookup function. The hash is a parameter, as `std::hash` is unspecified.
Every operation below runs under the shard's mutex in the source; the store is
only touched while the node holds its own mutex, so each call is one step.
-/
namespace BandleCxl.Source
open Library

abbrev MapType := Bytes → Option Bytes

def kNumShards : Nat := 256

structure KVStore where
  shards : Fin kNumShards → MapType

@[ext] theorem KVStore.ext {a b : KVStore} (h : a.shards = b.shards) : a = b := by
  cases a
  cases b
  simp_all

namespace KVStore

structure ApplyOp where
  op : UInt8 := opN
  shard : Fin kNumShards := ⟨0, by decide⟩
  key : Bytes
  value : Bytes
  deriving DecidableEq, Repr

def empty : KVStore := ⟨fun _ _ => none⟩

section
variable (hash : Bytes → Nat)

/-- `TransparentStringHash{}(key) % kNumShards`. -/
def shardIdx (key : Bytes) : Fin kNumShards := ⟨hash key % kNumShards, Nat.mod_lt _ (by decide)⟩

def find (kv : KVStore) (key : Bytes) : Option Bytes := kv.shards (shardIdx hash key) key

/-- `insert_or_assign`, and `find`/`emplace` of the `string_view` overload. -/
def put (kv : KVStore) (key value : Bytes) : KVStore :=
  ⟨Function.update kv.shards (shardIdx hash key)
    (Function.update (kv.shards (shardIdx hash key)) key (some value))⟩

/-- An absent key reads as the empty string. -/
def get (kv : KVStore) (key : Bytes) : Bytes := (kv.find hash key).getD []

def update (kv : KVStore) (key value : Bytes) : KVStore × Bool :=
  if (kv.find hash key).isSome then (kv.put hash key value, true) else (kv, false)

def erase (kv : KVStore) (key : Bytes) : KVStore × Bool :=
  if (kv.find hash key).isSome then
    (⟨Function.update kv.shards (shardIdx hash key)
      (Function.update (kv.shards (shardIdx hash key)) key none)⟩, true)
  else (kv, false)

/-- `put` for a `string_view`: assign to what `find` found, or emplace. -/
def putView (kv : KVStore) (key value : Bytes) : KVStore :=
  let map := kv.shards (shardIdx hash key)
  match map key with
  | some _ => ⟨Function.update kv.shards (shardIdx hash key) (Function.update map key (some value))⟩
  | none => ⟨Function.update kv.shards (shardIdx hash key) (Function.update map key (some value))⟩

/-- `erase` for a `std::string`: the number of entries the map erased, compared with zero. -/
def eraseKey (kv : KVStore) (key : Bytes) : KVStore × Bool :=
  let map := kv.shards (shardIdx hash key)
  let erased : Nat := if (map key).isSome then 1 else 0
  (⟨Function.update kv.shards (shardIdx hash key) (Function.update map key none)⟩,
    decide (erased > 0))

end

/-- Loop body of `apply_ops_in_order_progressive`: the shard comes from the
operation, not from its key. An update or erase of an absent key is skipped, and
a byte that names no write leaves the map as it is. -/
def applyOp (kv : KVStore) (op : ApplyOp) : KVStore :=
  let map := kv.shards op.shard
  if op.op = opP then
    ⟨Function.update kv.shards op.shard (Function.update map op.key (some op.value))⟩
  else if op.op = opU then
    if (map op.key).isSome then
      ⟨Function.update kv.shards op.shard (Function.update map op.key (some op.value))⟩
    else kv
  else if op.op = opD then
    if (map op.key).isSome then
      ⟨Function.update kv.shards op.shard (Function.update map op.key none)⟩
    else kv
  else kv

def applyOpsInOrder (kv : KVStore) (ops : List ApplyOp) : KVStore := ops.foldl applyOp kv

@[simp] theorem applyOpsInOrder_nil (kv : KVStore) : kv.applyOpsInOrder [] = kv := rfl

@[simp] theorem applyOpsInOrder_cons (kv : KVStore) (op : ApplyOp) (ops : List ApplyOp) :
    kv.applyOpsInOrder (op :: ops) = (kv.applyOp op).applyOpsInOrder ops := rfl

/-- The loop of `apply_ops_in_order_progressive` with what it reports to the callback;
`report` is `progress_cb != nullptr && progress_stride != 0`. -/
def progressLoop (stride : Nat) (report : Bool) : List ApplyOp → KVStore → Nat → Nat →
    KVStore × List Nat
  | [], kv, applied, since => (kv, if report ∧ since ≠ 0 then [applied] else [])
  | op :: rest, kv, applied, since =>
    if report then
      if since + 1 ≥ stride then
        let out := progressLoop stride report rest (kv.applyOp op) (applied + 1) 0
        (out.1, (applied + 1) :: out.2)
      else progressLoop stride report rest (kv.applyOp op) (applied + 1) (since + 1)
    else progressLoop stride report rest (kv.applyOp op) (applied + 1) since

/-- `callback` says whether a callback is given. -/
def applyOpsInOrderProgressive (kv : KVStore) (ops : List ApplyOp) (stride : Nat)
    (callback : Bool) : KVStore × List Nat :=
  if ops.length = 0 then (kv, []) else progressLoop stride (callback && stride != 0) ops kv 0 0

/-! ### Snapshots -/

/-- A map as iteration presents it: entries with different keys, in any order. -/
structure Snapshot where
  entries : List (Bytes × Bytes)
  nodup : (entries.map Prod.fst).Nodup

def Snapshot.find (m : Snapshot) (key : Bytes) : Option Bytes := m.entries.lookup key

/-- `result.insert(first, last)` over a whole map: present keys keep their value. -/
def insertAll (result map : MapType) : MapType := fun key => (result key).or (map key)

def takeSnapshot (kv : KVStore) : MapType :=
  (List.finRange kNumShards).foldl (fun result i => insertAll result (kv.shards i)) fun _ => none

/-- `map.clear()`. -/
def clear (_ : MapType) : MapType := fun _ => none

section
variable (hash : Bytes → Nat)

/-- `shard.map.insert(kv)`, which does not overwrite. -/
def insertEntry (kv : KVStore) (entry : Bytes × Bytes) : KVStore :=
  let map := kv.shards (shardIdx hash entry.1)
  ⟨Function.update kv.shards (shardIdx hash entry.1)
    (Function.update map entry.1 ((map entry.1).or (some entry.2)))⟩

/-- Clear every shard, then insert the entries. -/
def applySnapshot (kv : KVStore) (snapshot : Snapshot) : KVStore :=
  let cleared : KVStore := ⟨fun i => clear (kv.shards i)⟩
  snapshot.entries.foldl (insertEntry hash) cleared

end

/-! An operation routed by its own key acts as the corresponding single call. -/

theorem applyOp_put (hash : Bytes → Nat) (kv : KVStore) (key value : Bytes) :
    kv.applyOp ⟨opP, shardIdx hash key, key, value⟩ = kv.put hash key value := by
  simp only [applyOp, put, if_true]

theorem applyOp_update (hash : Bytes → Nat) (kv : KVStore) (key value : Bytes) :
    kv.applyOp ⟨opU, shardIdx hash key, key, value⟩ = (kv.update hash key value).1 := by
  have other : opU ≠ opP := by decide
  simp only [applyOp, update, find, put, other, if_false, if_true]
  by_cases present : (kv.shards (shardIdx hash key) key).isSome = true
  · simp only [present, if_true]
  · simp only [present, Bool.false_eq_true, if_false]

theorem applyOp_erase (hash : Bytes → Nat) (kv : KVStore) (key value : Bytes) :
    kv.applyOp ⟨opD, shardIdx hash key, key, value⟩ = (kv.erase hash key).1 := by
  have notPut : opD ≠ opP := by decide
  have notUpdate : opD ≠ opU := by decide
  simp only [applyOp, erase, find, notPut, notUpdate, if_false, if_true]
  by_cases present : (kv.shards (shardIdx hash key) key).isSome = true
  · simp only [present, if_true]
  · simp only [present, Bool.false_eq_true, if_false]

end KVStore

end BandleCxl.Source
