import BandleCxl.Guarantees.Agreement
import BandleCxl.Invariant.Origin
import BandleCxl.Invariant.Recast
import BandleCxl.Invariant.RingConsumer

/-!
The replicated write path against `direct_apply`. A request is cut to the payload
slot when its proposal is built: at most `kMaxValueBytes` bytes of key, and of the
value what is left. From there on nothing is lost: every store is the preloaded one
after `direct_apply` of the cut requests, and crossing a ring makes no difference.
-/
namespace BandleCxl.Guarantees
open Library Source Bandle Invariant

/-- The request with the bytes its pointers refer to, as `direct_apply` takes it. -/
def ownedRequest (r : BorrowedRequest) : Request where
  op := r.op
  key := (r.keyPtr.getD fun _ => 0).load 0 r.keyLen
  value := (r.valuePtr.getD fun _ => 0).load 0 r.valueLen

/-- The request as far as it fits into a payload slot. -/
def cutRequest (q : Request) : Request where
  op := q.op
  key := q.key.take kMaxValueBytes
  value := q.value.take (kMaxValueBytes - q.key.length)

/-- Only an empty key or value has a null pointer. -/
def Pointed (r : BorrowedRequest) : Prop :=
  (r.keyPtr = none → r.keyLen = 0) ∧ (r.valuePtr = none → r.valueLen = 0)

variable {hash : Bytes → Nat} {tsc : Nat → Nat} {d : Deployment} {s : Cluster}

/-! ### Submission -/

/-- A null pointer is not read, and its bytes are none. -/
theorem copyFrom_take (ptr : Option Mem) (len room : Nat) (dst : Mem) (offset : Nat)
    (pointed : ptr = none → len = 0) :
    copyFrom ptr (min len room) dst offset =
      dst.store offset (((ptr.getD fun _ => 0).load 0 len).take room) := by
  rw [Mem.take_load]
  cases ptr with
  | some p => rfl
  | none =>
    rw [pointed rfl, Nat.zero_min]
    exact (Mem.store_nil dst offset).symm

theorem build_data {nodeId : Nat} {old : Mem} {r : BorrowedRequest} (pointed : Pointed r)
    (write : r.op ≠ opG) :
    (buildProposal nodeId old r).body.data =
      (old.store 0 (cutRequest (ownedRequest r)).key).store (min r.keyLen kMaxValueBytes)
        (cutRequest (ownedRequest r)).value := by
  have room : kMaxValueBytes - (ownedRequest r).key.length =
      kMaxValueBytes - min r.keyLen kMaxValueBytes := by
    simp only [ownedRequest, Mem.load_length]
    omega
  simp only [buildProposal, if_neg write, copyFrom_take _ _ _ _ _ pointed.1,
    copyFrom_take _ _ _ _ _ pointed.2, cutRequest, room]
  rfl

theorem key_of_carries {r : BorrowedRequest} {m : BandleMessage} (carries : Carries r m)
    (pointed : Pointed r) (write : r.op ≠ opG) :
    m.body.key = (cutRequest (ownedRequest r)).key := by
  obtain ⟨nodeId, old, -, keyLen, -, data⟩ := carries
  rw [build_data pointed write] at data
  simp only [buildProposal, if_neg write] at keyLen
  have length : (cutRequest (ownedRequest r)).key.length = min r.keyLen kMaxValueBytes := by
    simp [cutRequest, ownedRequest, Nat.min_comm]
  rw [BandlePayload.key, keyLen, data, Mem.load_store_disjoint (by omega), ← length]
  exact Mem.load_store_self _ _ _

theorem val_of_carries {r : BorrowedRequest} {m : BandleMessage} (carries : Carries r m)
    (pointed : Pointed r) (write : r.op ≠ opG) :
    m.body.val = (cutRequest (ownedRequest r)).value := by
  obtain ⟨nodeId, old, -, keyLen, valueLen, data⟩ := carries
  rw [build_data pointed write] at data
  simp only [buildProposal, if_neg write] at keyLen valueLen
  have length : (cutRequest (ownedRequest r)).value.length =
      min r.valueLen (kMaxValueBytes - min r.keyLen kMaxValueBytes) := by
    simp only [cutRequest, ownedRequest, List.length_take, Mem.load_length]
    omega
  rw [BandlePayload.val, keyLen, valueLen, data, ← length]
  exact Mem.load_store_self _ _ _

/-- Executing the record of a proposal is `direct_apply` of its cut request. -/
theorem apply_carried {r : BorrowedRequest} {m : BandleMessage} (carries : Carries r m)
    (pointed : Pointed r) (kv : KVStore) :
    applyEntry hash kv (entryOf m) = directApply hash kv (cutRequest (ownedRequest r)) := by
  have op : m.body.op = r.op := carries.choose_spec.choose_spec.1
  by_cases read : r.op = opG
  · simp [applyEntry, directApply, entryOf, op, cutRequest, ownedRequest, read, opG, opP, opU, opD]
  · rw [applyEntry, directApply, entryOf, key_of_carries carries pointed read,
      val_of_carries carries pointed read, op]
    rfl

/-! ### Rings -/

/-- The same node with another record of what it has handled. -/
def withHandled (handled : List BandleMessage) (n : Bandle) : Bandle :=
  { n with hist := { n.hist with handled := handled } }

/-- What arrives is handled as what was sent. -/
theorem handleProposal_same (n : Bandle) {sent got : BandleMessage} (same : SameMessage sent got)
    (advance : Bool) :
    n.handleProposalLocked hash tsc got advance =
      withHandled (n.hist.handled ++ [got]) (n.handleProposalLocked hash tsc sent advance) := by
  have handled := handleProposal_recast hash tsc n.running n.hist.handled n same.symm advance
  have kept : ProposingSame n (n.handleProposalLocked hash tsc sent advance) :=
    .proposal n sent advance
  rw [recast_self, ← kept.running] at handled
  exact handled

/-- What `read_slot` returns for a slot that `push` wrote. -/
theorem readSlot_same (payloads : Mem) (idx slotSeq : Nat) (out msg : BandleMessage) :
    SameMessage msg (readSlot (ntStorePayloadPadded payloads idx msg.body.data msg.body.bytes) idx
      (descriptorOf slotSeq msg) out) :=
  (SameHeader.fill msg out slotSeq).copy (ntStorePayloadPadded_load ..)

/-! ### Stores -/

/-- Request `q` is what record `e` executed: the cut form of the request that the
proposal of that number was built for, or nothing for a no-op. -/
def Performs (d : Deployment) (s : Cluster) (e : Executed) (q : Request) : Prop :=
  ∃ i, ∃ m ∈ (s.node i).hist.numbered, e = recordOf m ∧
    ((m.body.op = opN ∧ q.op = opN) ∨
      ∃ r ∈ (d.input i).flatten, Carries r m ∧ q = cutRequest (ownedRequest r))

theorem performed (origin : OriginInv d s)
    (pointed : ∀ i, ∀ r ∈ (d.input i).flatten, Pointed r) {i : NodeId} {m : BandleMessage}
    (numbered : m ∈ (s.node i).hist.numbered) :
    ∃ q, Performs d s (recordOf m) q ∧
      ∀ kv, applyEntry hash kv (entryOf m) = directApply hash kv q := by
  rcases (origin i).numbered m numbered with noop | ⟨r, given, -, carries⟩
  · refine ⟨{ op := opN }, ⟨i, m, numbered, rfl, Or.inl ⟨noop, rfl⟩⟩, fun kv => ?_⟩
    simp [applyEntry, directApply, entryOf, noop, opN, opP, opU, opD]
  · exact ⟨_, ⟨i, m, numbered, rfl, Or.inr ⟨r, given, carries, rfl⟩⟩,
      fun kv => apply_carried carries (pointed i r given) kv⟩

/-- Executing records one by one is performing their requests one by one. -/
theorem foldl_performed {records : List Executed}
    (each : ∀ e ∈ records, ∃ q, Performs d s e q ∧
      ∀ kv, applyEntry hash kv (entryOfExecuted e) = directApply hash kv q) (kv : KVStore) :
    ∃ reqs, List.Forall₂ (Performs d s) records reqs ∧
      (records.map entryOfExecuted).foldl (applyEntry hash) kv =
        reqs.foldl (directApply hash) kv := by
  induction records generalizing kv with
  | nil => exact ⟨[], .nil, rfl⟩
  | cons e rest ih =>
    obtain ⟨q, performs, applies⟩ := each e (List.mem_cons_self ..)
    obtain ⟨reqs, others, folded⟩ := ih (fun e' member => each e' (List.mem_cons_of_mem e member))
      (applyEntry hash kv (entryOfExecuted e))
    refine ⟨q :: reqs, .cons performs others, ?_⟩
    rw [List.map_cons, List.foldl_cons, folded, applies kv]
    rfl

/-- A request that fits is not cut. -/
theorem directApply_cut (kv : KVStore) {r : BorrowedRequest}
    (fits : r.keyLen + r.valueLen ≤ kMaxValueBytes ∨ r.op = opD ∧ r.keyLen ≤ kMaxValueBytes) :
    directApply hash kv (cutRequest (ownedRequest r)) = directApply hash kv (ownedRequest r) := by
  have key : (cutRequest (ownedRequest r)).key = (ownedRequest r).key := by
    apply List.take_of_length_le
    simp only [ownedRequest, Mem.load_length]
    omega
  rcases fits with whole | ⟨erase, -⟩
  · have value : (cutRequest (ownedRequest r)).value = (ownedRequest r).value := by
      apply List.take_of_length_le
      simp only [ownedRequest, Mem.load_length]
      omega
    rw [directApply, directApply, key, value]
    rfl
  · have op : (ownedRequest r).op = opD := erase
    have cutOp : (cutRequest (ownedRequest r)).op = opD := erase
    simp only [directApply, op, cutOp, key, opP, opU, opD]
    rfl

/-- In every reachable state every store is the preloaded one after `direct_apply` of
the cut requests, in sequence order; every proposal passes the ring's size check and
is handled at a node in the same way whether it comes from a ring slot or directly;
and cutting changes nothing for a request that fits. -/
theorem replicated_writes_as_direct (hash : Bytes → Nat) (d : Deployment)
    (pointed : ∀ i, ∀ r ∈ (d.input i).flatten, Pointed r) (s : Cluster)
    (reached : (clusterSystem hash d).Reachable s) :
    (∀ j, ∃ reqs, List.Forall₂ (Performs d s) (s.node j).hist.executed reqs ∧
      (s.node j).kv = reqs.foldl (directApply hash) d.preload) ∧
    (∀ i, ∀ m ∈ (s.node i).hist.numbered, m.body.bytes ≤ kMaxValueBytes ∧
      ∀ payloads idx slotSeq out,
        ∃ got, got = readSlot (ntStorePayloadPadded payloads idx m.body.data m.body.bytes) idx
            (descriptorOf slotSeq m) out ∧
          ∀ (n : Bandle) tsc advance, n.handleProposalLocked hash tsc got advance =
            withHandled (n.hist.handled ++ [got]) (n.handleProposalLocked hash tsc m advance)) ∧
    ∀ kv r, (r.keyLen + r.valueLen ≤ kMaxValueBytes ∨ r.op = opD ∧ r.keyLen ≤ kMaxValueBytes) →
      directApply hash kv (cutRequest (ownedRequest r)) = directApply hash kv (ownedRequest r) := by
  have flow := flow_reachable reached
  have origin := origin_reachable reached
  refine ⟨fun j => ?_, fun i m numbered => ⟨(flow.wf i m numbered).fits, ?_⟩,
    fun kv r fits => directApply_cut kv fits⟩
  · rw [store_fold flow j]
    refine foldl_performed (fun e member => ?_) d.preload
    obtain ⟨k, inside, found⟩ := List.getElem_of_mem member
    obtain ⟨i, m, numbered, -, record⟩ := executed_numbered flow j inside
    rw [← found, record]
    exact performed origin pointed numbered
  · intro payloads idx slotSeq out
    exact ⟨_, rfl, fun n tsc advance => handleProposal_same n (readSlot_same ..) advance⟩

theorem replicated_writes_oneWrite :
    ∃ s, (clusterSystem List.length oneWrite).run (Cluster.initial oneWrite) acknowledge = some s ∧
      (s.node 0).hist.executed.length = 1 ∧
      ∃ reqs, List.Forall₂ (Performs oneWrite s) (s.node 0).hist.executed reqs ∧
        (s.node 0).kv = reqs.foldl (directApply List.length) .empty := by
  refine ⟨_, rfl, rfl, ?_⟩
  refine (replicated_writes_as_direct List.length oneWrite (fun i r given => ?_) _
    (.of_run acknowledge (.start rfl) rfl)).1 0
  fin_cases i
  · rw [List.mem_singleton.mp given]
    exact ⟨fun null => (by cases null), fun null => (by cases null)⟩
  · cases given
  · cases given

/-- A put of a one-byte key and a value of `kMaxValueBytes` bytes. -/
def longPut : BorrowedRequest where
  op := opP
  keyPtr := some fun _ => 1
  keyLen := 1
  valuePtr := some fun _ => 2
  valueLen := 1088

def oneLongWrite : Deployment := defaultDeployment fun i => if i = 0 then [[longPut]] else []

/-- The put is counted as done, its value has lost its last byte, and `direct_apply`
of the same request would have stored all of it. -/
theorem long_value_is_cut :
    ∃ s, (clusterSystem List.length oneLongWrite).Reachable s ∧
      oneLongWrite.input 0 = [[longPut]] ∧ (s.node 0).acct.okOps = 1 ∧
      ((s.node 0).kv.find List.length [1]).map List.length = some 1087 ∧
      ((directApply List.length oneLongWrite.preload (ownedRequest longPut)).find List.length
        [1]).map List.length = some 1088 := by
  refine ⟨_, .of_run acknowledge (.start rfl) rfl, rfl, rfl, ?_, ?_⟩
  · decide +kernel
  · decide +kernel

end BandleCxl.Guarantees
