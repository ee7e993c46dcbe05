import Mathlib.Data.Finmap
import BandleCxl.Library.Refinement
import BandleCxl.Source.Bandle

/-!
The sharded store against one finite map. Every member function answers as the map
does and keeps each key in the shard that its hash selects; so any sequence of calls
on the store, with any hash, reads as the same sequence on the map.
-/
namespace BandleCxl.Guarantees
open Library Source KVStore

/-! ### Calls -/

/-- An operation of a batch, routed as `Bandle::shard_for` does. -/
def route (hash : Bytes → Nat) (req : Request) : ApplyOp where
  op := req.op
  shard := shardIdx hash req.key
  key := req.key
  value := req.value

inductive StoreCall where
  | put (key value : Bytes)
  | putView (key value : Bytes)
  | get (key : Bytes)
  | update (key value : Bytes)
  | erase (key : Bytes)
  | eraseKey (key : Bytes)
  | applyOpsInOrder (ops : List Request)
  | applyOpsInOrderProgressive (ops : List Request) (stride : Nat) (callback : Bool)
  | takeSnapshot
  | applySnapshot (snapshot : Snapshot)

inductive StoreAnswer where
  | nothing
  | bytes (value : Bytes)
  | flag (present : Bool)
  | progress (reports : List Nat)
  | map (content : MapType)

/-- The overloads that take rvalues or views and do not differ otherwise are one call. -/
def StoreCall.exec (hash : Bytes → Nat) (kv : KVStore) : StoreCall → KVStore × StoreAnswer
  | .put key value => (kv.put hash key value, .nothing)
  | .putView key value => (kv.putView hash key value, .nothing)
  | .get key => (kv, .bytes (kv.get hash key))
  | .update key value => ((kv.update hash key value).1, .flag (kv.update hash key value).2)
  | .erase key => ((kv.erase hash key).1, .flag (kv.erase hash key).2)
  | .eraseKey key => ((kv.eraseKey hash key).1, .flag (kv.eraseKey hash key).2)
  | .applyOpsInOrder ops => (kv.applyOpsInOrder (ops.map (route hash)), .nothing)
  | .applyOpsInOrderProgressive ops stride callback =>
    let out := kv.applyOpsInOrderProgressive (ops.map (route hash)) stride callback
    (out.1, .progress out.2)
  | .takeSnapshot => (kv, .map kv.takeSnapshot)
  | .applySnapshot snapshot => (kv.applySnapshot hash snapshot, .nothing)

/-! ### The same calls on one finite map -/

abbrev PlainMap := Finmap fun _ : Bytes => Bytes

/-- `put`, `update` or `erase`, by the operation's byte; any other byte does nothing. -/
def writeOnMap (m : PlainMap) (req : Request) : PlainMap :=
  if req.op = opP then m.insert req.key req.value
  else if req.op = opU then if req.key ∈ m then m.insert req.key req.value else m
  else if req.op = opD then m.erase req.key
  else m

def Snapshot.toMap (snapshot : Snapshot) : PlainMap :=
  (snapshot.entries.map fun e => (⟨e.1, e.2⟩ : Σ _ : Bytes, Bytes)).toFinmap

/-- Reports after every `stride` operations, and after the last ones. -/
def progressReports (count stride : Nat) : List Nat :=
  (List.range (count / stride)).map (fun j => (j + 1) * stride) ++
    if count % stride ≠ 0 then [count] else []

def StoreCall.onMap (m : PlainMap) : StoreCall → PlainMap × StoreAnswer
  | .put key value | .putView key value => (m.insert key value, .nothing)
  | .get key => (m, .bytes ((m.lookup key).getD []))
  | .update key value =>
    if key ∈ m then (m.insert key value, .flag true) else (m, .flag false)
  | .erase key | .eraseKey key => (m.erase key, .flag (decide (key ∈ m)))
  | .applyOpsInOrder ops => (ops.foldl writeOnMap m, .nothing)
  | .applyOpsInOrderProgressive ops stride callback =>
    (ops.foldl writeOnMap m,
      .progress (if callback ∧ stride ≠ 0 then progressReports ops.length stride else []))
  | .takeSnapshot => (m, .map fun key => m.lookup key)
  | .applySnapshot snapshot => (Snapshot.toMap snapshot, .nothing)

/-! ### Representation -/

/-- Each key of the map lies in its own shard with its value, and nothing lies elsewhere. -/
def Represents (hash : Bytes → Nat) (kv : KVStore) (m : PlainMap) : Prop :=
  ∀ i key, kv.shards i key = if i = shardIdx hash key then m.lookup key else none

variable {hash : Bytes → Nat} {kv : KVStore} {m : PlainMap}

theorem Represents.find (h : Represents hash kv m) (key : Bytes) :
    kv.find hash key = m.lookup key := by
  rw [KVStore.find, h, if_pos rfl]

theorem Represents.isSome (h : Represents hash kv m) (key : Bytes) :
    (kv.find hash key).isSome = true ↔ key ∈ m := by
  rw [h.find, Finmap.lookup_isSome]

/-- One key of one shard is set or removed. -/
def setKey (hash : Bytes → Nat) (kv : KVStore) (key : Bytes) (value : Option Bytes) : KVStore :=
  ⟨Function.update kv.shards (shardIdx hash key)
    (Function.update (kv.shards (shardIdx hash key)) key value)⟩

theorem Represents.setKey (h : Represents hash kv m) {m' : PlainMap} {key : Bytes}
    {value : Option Bytes} (here : m'.lookup key = value)
    (others : ∀ k, k ≠ key → m'.lookup k = m.lookup k) :
    Represents hash (setKey hash kv key value) m' := by
  intro i k
  simp only [Guarantees.setKey]
  by_cases shard : i = shardIdx hash key
  · subst i
    rw [Function.update_self]
    by_cases same : k = key
    · subst k
      rw [Function.update_self, if_pos rfl, here]
    · rw [Function.update_of_ne same, h, others k same]
  · rw [Function.update_of_ne shard, h]
    split
    · next own =>
      have other : k ≠ key := by
        rintro rfl
        exact shard own
      rw [others k other]
    · rfl

theorem Represents.insert (h : Represents hash kv m) (key value : Bytes) :
    Represents hash (Guarantees.setKey hash kv key (some value)) (m.insert key value) :=
  h.setKey (Finmap.lookup_insert m) fun _ other => Finmap.lookup_insert_of_ne m other

theorem Represents.erase (h : Represents hash kv m) (key : Bytes) :
    Represents hash (Guarantees.setKey hash kv key none) (m.erase key) :=
  h.setKey (Finmap.lookup_erase key m) fun _ other => Finmap.lookup_erase_ne other

/-- A call that finds nothing to change. -/
theorem Represents.absent (h : Represents hash kv m) {key : Bytes} (absent : key ∉ m) :
    Represents hash kv (m.erase key) := by
  have same : m.erase key = m := by
    refine Finmap.ext_lookup fun k => ?_
    by_cases here : k = key
    · subst k
      rw [Finmap.lookup_erase, Finmap.lookup_eq_none.mpr absent]
    · rw [Finmap.lookup_erase_ne here]
  rw [same]
  exact h

/-! ### Single calls -/

theorem Represents.put (h : Represents hash kv m) (key value : Bytes) :
    Represents hash (kv.put hash key value) (m.insert key value) := h.insert key value

theorem Represents.update (h : Represents hash kv m) (key value : Bytes) :
    Represents hash (kv.update hash key value).1 (if key ∈ m then m.insert key value else m) ∧
      (kv.update hash key value).2 = decide (key ∈ m) := by
  unfold KVStore.update
  split
  · next found =>
    have member := (h.isSome key).mp found
    rw [if_pos member]
    exact ⟨h.put key value, by simpa using member⟩
  · next missing =>
    have absent : key ∉ m := fun member => missing ((h.isSome key).mpr member)
    rw [if_neg absent]
    exact ⟨h, by simpa using absent⟩

theorem Represents.eraseView (h : Represents hash kv m) (key : Bytes) :
    Represents hash (kv.erase hash key).1 (m.erase key) ∧
      (kv.erase hash key).2 = decide (key ∈ m) := by
  unfold KVStore.erase
  split
  · next found =>
    have member := (h.isSome key).mp found
    exact ⟨h.erase key, by simpa using member⟩
  · next missing =>
    have absent : key ∉ m := fun member => missing ((h.isSome key).mpr member)
    exact ⟨h.absent absent, by simpa using absent⟩

theorem Represents.eraseKey (h : Represents hash kv m) (key : Bytes) :
    Represents hash (kv.eraseKey hash key).1 (m.erase key) ∧
      (kv.eraseKey hash key).2 = decide (key ∈ m) := by
  refine ⟨h.erase key, ?_⟩
  have present := h.isSome key
  unfold KVStore.find at present
  unfold KVStore.eraseKey
  by_cases member : key ∈ m
  · simp [present.mpr member, member]
  · have missing : ¬ (kv.shards (shardIdx hash key) key).isSome = true :=
      fun found => member (present.mp found)
    simp only [missing, member]
    rfl

theorem putView_eq (hash : Bytes → Nat) (kv : KVStore) (key value : Bytes) :
    kv.putView hash key value = kv.put hash key value := by
  unfold putView
  dsimp only
  split <;> rfl

/-! ### Batches -/

/-- A routed operation of a batch is the single call that its byte names. -/
theorem applyOp_route (hash : Bytes → Nat) (kv : KVStore) (req : Request) :
    kv.applyOp (route hash req) = Bandle.directApply hash kv req := by
  unfold Bandle.directApply route
  by_cases put : req.op = opP
  · rw [put, if_pos rfl, applyOp_put]
  · rw [if_neg put]
    by_cases update : req.op = opU
    · rw [update, if_pos rfl, applyOp_update]
    · rw [if_neg update]
      by_cases erase : req.op = opD
      · rw [erase, if_pos rfl, applyOp_erase]
      · rw [if_neg erase]
        simp only [applyOp, put, update, erase, if_false]

/-- `apply_ops_in_order` is the single calls in list order. -/
theorem applyOps_route (hash : Bytes → Nat) (kv : KVStore) (ops : List Request) :
    kv.applyOpsInOrder (ops.map (route hash)) = ops.foldl (Bandle.directApply hash) kv := by
  induction ops generalizing kv with
  | nil => rfl
  | cons req rest ih =>
    rw [List.map_cons, applyOpsInOrder_cons, applyOp_route, ih, List.foldl_cons]

theorem Represents.directApply (h : Represents hash kv m) (req : Request) :
    Represents hash (Bandle.directApply hash kv req) (writeOnMap m req) := by
  unfold Bandle.directApply writeOnMap
  by_cases put : req.op = opP
  · rw [if_pos put, if_pos put]
    exact h.put _ _
  · rw [if_neg put, if_neg put]
    by_cases update : req.op = opU
    · rw [if_pos update, if_pos update]
      exact (h.update _ _).1
    · rw [if_neg update, if_neg update]
      split
      · exact (h.eraseView _).1
      · exact h

theorem Represents.applyOps (h : Represents hash kv m) (ops : List Request) :
    Represents hash (kv.applyOpsInOrder (ops.map (route hash))) (ops.foldl writeOnMap m) := by
  rw [applyOps_route]
  induction ops generalizing kv m with
  | nil => exact h
  | cons req rest ih => exact ih (h.directApply req)

theorem progressLoop_store (stride : Nat) (report : Bool) (ops : List ApplyOp) (kv : KVStore)
    (applied since : Nat) :
    (progressLoop stride report ops kv applied since).1 = kv.applyOpsInOrder ops := by
  induction ops generalizing kv applied since with
  | nil => rfl
  | cons op rest ih =>
    simp only [progressLoop]
    split
    · split
      · exact ih _ _ _
      · exact ih _ _ _
    · exact ih _ _ _

theorem progressLoop_silent (stride : Nat) (ops : List ApplyOp) (kv : KVStore)
    (applied since : Nat) : (progressLoop stride false ops kv applied since).2 = [] := by
  induction ops generalizing kv applied since with
  | nil => rfl
  | cons op rest ih => exact ih _ _ _

/-- The reports from a point where `since` operations of the current stride are done. -/
theorem progressLoop_reports {stride : Nat} (ops : List ApplyOp) (kv : KVStore) (base : Nat)
    {since : Nat} (within : since < stride) :
    (progressLoop stride true ops kv (base + since) since).2 =
      (List.range ((since + ops.length) / stride)).map (fun j => base + (j + 1) * stride) ++
        if (since + ops.length) % stride ≠ 0 then [base + since + ops.length] else [] := by
  induction ops generalizing kv base since with
  | nil => simp [progressLoop, Nat.div_eq_of_lt within, Nat.mod_eq_of_lt within]
  | cons op rest ih =>
    simp only [progressLoop, if_true, List.length_cons]
    split
    · next reached =>
      -- the stride is complete: one report, and the next stride starts here
      have full : since + 1 = stride := by omega
      have start : base + since + 1 = base + stride + 0 := by omega
      have total : since + (rest.length + 1) = rest.length + stride := by omega
      have last : base + since + (rest.length + 1) = base + stride + rest.length := by omega
      rw [start, ih (kv.applyOp op) (base + stride) (by omega), total,
        Nat.add_div_right _ (by omega), Nat.add_mod_right, List.range_succ_eq_map, last]
      simp only [Nat.zero_add, Nat.add_zero, List.map_cons, List.map_map, List.cons_append,
        Nat.one_mul]
      congr 2
      refine List.map_congr_left fun j _ => ?_
      simp only [Function.comp_apply, Nat.succ_eq_add_one]
      ring
    · next short =>
      have total : since + (rest.length + 1) = since + 1 + rest.length := by omega
      have last : base + since + (rest.length + 1) = base + (since + 1) + rest.length := by omega
      rw [Nat.add_assoc base since 1, ih (kv.applyOp op) base (by omega), total, last]

theorem progressive_spec (kv : KVStore) (ops : List ApplyOp) (stride : Nat) (callback : Bool) :
    kv.applyOpsInOrderProgressive ops stride callback =
      (kv.applyOpsInOrder ops,
        if callback ∧ stride ≠ 0 then progressReports ops.length stride else []) := by
  unfold applyOpsInOrderProgressive
  split
  · next empty =>
    rw [List.length_eq_zero_iff.mp empty]
    simp [progressReports]
  · refine Prod.ext (progressLoop_store _ _ _ _ _ _) ?_
    by_cases report : callback = true ∧ stride ≠ 0
    · have on : (callback && stride != 0) = true := by simpa using report
      have reports := progressLoop_reports ops kv 0 (Nat.pos_of_ne_zero report.2)
      rw [on, if_pos report]
      simpa [progressReports] using reports
    · have off : (callback && stride != 0) = false := by simpa using report
      rw [off, if_neg report]
      exact progressLoop_silent _ _ _ _ _

/-! ### Snapshots -/

theorem lookup_toMap (snapshot : Snapshot) (key : Bytes) :
    (Snapshot.toMap snapshot).lookup key = snapshot.find key := by
  unfold Snapshot.toMap Snapshot.find
  rw [Finmap.dlookup_list_toFinmap]
  induction snapshot.entries with
  | nil => rfl
  | cons e rest ih =>
    obtain ⟨k, v⟩ := e
    by_cases here : key = k
    · subst here
      simp
    · have other : (key == k) = false := by simpa using here
      rw [List.map_cons, List.lookup_cons, other, List.dlookup_cons_ne _ _ here]
      exact ih

/-- Inserting entries one by one: what a shard held before wins, then the first entry. -/
theorem insertEntries_shards (hash : Bytes → Nat) (entries : List (Bytes × Bytes)) (kv : KVStore)
    (i : Fin kNumShards) (key : Bytes) :
    (entries.foldl (insertEntry hash) kv).shards i key =
      (kv.shards i key).or (if i = shardIdx hash key then entries.lookup key else none) := by
  induction entries generalizing kv with
  | nil => simp
  | cons e rest ih =>
    obtain ⟨k, v⟩ := e
    rw [List.foldl_cons, ih]
    by_cases here : key = k
    · subst here
      by_cases shard : i = shardIdx hash key
      · subst shard
        simp [insertEntry]
      · simp [insertEntry, shard]
    · have other : (key == k) = false := by simpa using here
      have kept : (kv.insertEntry hash (k, v)).shards i key = kv.shards i key := by
        by_cases shard : i = shardIdx hash k
        · subst shard
          simp [insertEntry, here]
        · simp [insertEntry, shard]
      rw [kept]
      rw [List.lookup_cons, other]

/-- Whatever the store held before. -/
theorem represents_applySnapshot (hash : Bytes → Nat) (kv : KVStore) (snapshot : Snapshot) :
    Represents hash (kv.applySnapshot hash snapshot) (Snapshot.toMap snapshot) := by
  intro i key
  unfold applySnapshot
  rw [insertEntries_shards, lookup_toMap]
  rfl

theorem insertAll_foldl (kv : KVStore) (shards : List (Fin kNumShards)) (result : MapType)
    (key : Bytes) :
    shards.foldl (fun result i => insertAll result (kv.shards i)) result key =
      (result key).or (shards.findSome? fun i => kv.shards i key) := by
  induction shards generalizing result with
  | nil => simp
  | cons i rest ih =>
    rw [List.foldl_cons, ih, List.findSome?_cons]
    simp only [insertAll]
    cases result key <;> cases kv.shards i key <;> rfl

/-- Only one shard can hold a key, so the order of the shards does not matter. -/
theorem Represents.takeSnapshot (h : Represents hash kv m) (key : Bytes) :
    kv.takeSnapshot key = m.lookup key := by
  unfold KVStore.takeSnapshot
  rw [insertAll_foldl]
  simp only [Option.none_or]
  cases found : m.lookup key with
  | none =>
    rw [List.findSome?_eq_none_iff]
    intro i _
    rw [h, found, ite_self]
  | some v =>
    have here : kv.shards (shardIdx hash key) key = some v := by rw [h, if_pos rfl, found]
    have some : ((List.finRange kNumShards).findSome? fun i => kv.shards i key).isSome = true := by
      rw [List.findSome?_isSome_iff]
      exact ⟨shardIdx hash key, List.mem_finRange _, by rw [here]; rfl⟩
    obtain ⟨w, first⟩ := Option.isSome_iff_exists.mp some
    obtain ⟨i, -, at_⟩ := List.exists_of_findSome?_eq_some first
    rw [first]
    rw [h] at at_
    split at at_
    · rw [← at_, found]
    · cases at_

/-- Every finite map can be iterated over. -/
theorem exists_snapshot (m : PlainMap) : ∃ snapshot : Snapshot, Snapshot.toMap snapshot = m := by
  induction m using Finmap.induction_on with
  | H a =>
    have pairs : (a.entries.map fun e => (e.1, e.2)).map
        (fun e => (⟨e.1, e.2⟩ : Σ _ : Bytes, Bytes)) = a.entries := by
      rw [List.map_map]
      exact List.map_id _
    refine ⟨⟨a.entries.map fun e => (e.1, e.2), ?_⟩, ?_⟩
    · rw [List.map_map]
      exact a.nodupKeys
    · unfold Snapshot.toMap
      dsimp only
      rw [pairs]
      refine Finmap.ext_lookup fun key => ?_
      rw [Finmap.dlookup_list_toFinmap]
      rfl

theorem Represents.unique {kv' : KVStore} (h : Represents hash kv m) (h' : Represents hash kv' m) :
    kv' = kv := by
  apply KVStore.ext
  funext i key
  rw [h, h']

/-! ### Every sequence of calls -/

theorem store_simulates (hash : Bytes → Nat) :
    Simulates (Represents hash) (StoreCall.exec hash) StoreCall.onMap := by
  intro kv m call h
  cases call with
  | put key value => exact ⟨h.put key value, rfl⟩
  | putView key value =>
    simp only [StoreCall.exec, putView_eq]
    exact ⟨h.put key value, rfl⟩
  | get key =>
    refine ⟨h, ?_⟩
    simp only [StoreCall.exec, StoreCall.onMap, KVStore.get, h.find]
  | update key value =>
    obtain ⟨content, flag⟩ := h.update key value
    simp only [StoreCall.exec, StoreCall.onMap, flag]
    by_cases member : key ∈ m
    · rw [if_pos member] at content ⊢
      exact ⟨content, by simp [member]⟩
    · rw [if_neg member] at content ⊢
      exact ⟨content, by simp [member]⟩
  | erase key =>
    obtain ⟨content, flag⟩ := h.eraseView key
    exact ⟨content, congrArg StoreAnswer.flag flag⟩
  | eraseKey key =>
    obtain ⟨content, flag⟩ := h.eraseKey key
    exact ⟨content, congrArg StoreAnswer.flag flag⟩
  | applyOpsInOrder ops => exact ⟨h.applyOps ops, rfl⟩
  | applyOpsInOrderProgressive ops stride callback =>
    simp only [StoreCall.exec, StoreCall.onMap, progressive_spec, List.length_map]
    exact ⟨h.applyOps ops, trivial⟩
  | takeSnapshot =>
    have content : kv.takeSnapshot = fun key => m.lookup key := funext h.takeSnapshot
    exact ⟨h, congrArg StoreAnswer.map content⟩
  | applySnapshot snapshot => exact ⟨represents_applySnapshot hash kv snapshot, rfl⟩

theorem represents_empty (hash : Bytes → Nat) : Represents hash .empty ∅ := by
  intro i key
  rw [Finmap.lookup_empty, ite_self]
  rfl

/-- For every hash and every sequence of calls from the empty store: the answers are those
of one finite map and every key lies in the one shard of its hash; a batch is its
operations one by one; loading a snapshot leaves exactly the snapshot; and whatever
enumeration of a taken snapshot is loaded into whatever store, the result is the store
it was taken from. -/
theorem store_refines_map (hash : Bytes → Nat) (calls : List StoreCall) :
    (runCalls (StoreCall.exec hash) .empty calls).2 = (runCalls StoreCall.onMap ∅ calls).2 ∧
    (∀ i key, (runCalls (StoreCall.exec hash) .empty calls).1.shards i key =
      if i = shardIdx hash key then (runCalls StoreCall.onMap ∅ calls).1.lookup key else none) ∧
    (∀ (kv : KVStore) (ops : List Request), kv.applyOpsInOrder (ops.map (route hash)) =
      ops.foldl (Bandle.directApply hash) kv) ∧
    (∀ (kv : KVStore) (snapshot : Snapshot) i key, (kv.applySnapshot hash snapshot).shards i key =
      if i = shardIdx hash key then snapshot.find key else none) ∧
    (∃ snapshot : Snapshot, snapshot.find =
      (runCalls (StoreCall.exec hash) .empty calls).1.takeSnapshot) ∧
    ∀ snapshot : Snapshot, snapshot.find =
        (runCalls (StoreCall.exec hash) .empty calls).1.takeSnapshot →
      ∀ kv : KVStore, kv.applySnapshot hash snapshot =
        (runCalls (StoreCall.exec hash) .empty calls).1 := by
  obtain ⟨content, answers⟩ := (store_simulates hash).run (represents_empty hash) calls
  refine ⟨answers, content, applyOps_route hash, ?_, ?_, ?_⟩
  · intro kv snapshot i key
    rw [← lookup_toMap]
    exact represents_applySnapshot hash kv snapshot i key
  · obtain ⟨snapshot, same⟩ := exists_snapshot (runCalls StoreCall.onMap ∅ calls).1
    refine ⟨snapshot, ?_⟩
    funext key
    rw [content.takeSnapshot, ← same, lookup_toMap]
  · intro snapshot taken kv
    have same : Snapshot.toMap snapshot = (runCalls StoreCall.onMap ∅ calls).1 := by
      refine Finmap.ext_lookup fun key => ?_
      rw [lookup_toMap, taken, content.takeSnapshot]
    have loaded := represents_applySnapshot hash kv snapshot
    rw [same] at loaded
    exact content.unique loaded

end BandleCxl.Guarantees
