import BandleCxl.Source.Execution

/-!
What one replica's log, store and history have to do with the proposals it has
handled. The invariant is local and needs no assumption on the order or the
spacing of sequence numbers: a slot that is reused loses its old entry, but what
a slot holds and what has been executed always come from handled proposals.
-/
namespace BandleCxl.Invariant
open Library Source Bandle

/-- The effect of an executed entry on the store, in terms of the direct path. -/
def applyRecord (hash : Bytes → Nat) (kv : KVStore) (r : Executed) : KVStore :=
  if r.decision = 1 then directApply hash kv ⟨r.op, r.key, r.value⟩ else kv

/-- How the execution of an accepted proposal is recorded. -/
def recordOf (m : BandleMessage) : Executed where
  seq := m.body.seq
  decision := 1
  proposer := m.body.proposer
  op := m.body.op
  key := m.body.key
  value := m.body.val

/-- A proposal as its proposer builds it: reads and no-ops carry no payload and
nothing exceeds the payload slot. -/
structure WellFormed (proposer : Nat) (m : BandleMessage) : Prop where
  type : m.type = .proposal
  proposer : m.body.proposer = proposer
  fits : m.body.keyLen + m.body.valueLen ≤ kMaxValueBytes
  bare : m.body.op = opG ∨ m.body.op = opN → m.body.keyLen = 0 ∧ m.body.valueLen = 0

/-- The log holds proposal `m`, ready to be executed under its number. -/
def Holds (n : Bandle) (m : BandleMessage) : Prop :=
  (n.log (slotOf m.body.seq)).seq = m.body.seq ∧
  (n.log (slotOf m.body.seq)).proposalKnown = true ∧
  (n.log (slotOf m.body.seq)).decided = true ∧
  (n.log (slotOf m.body.seq)).decision = 1 ∧
  (n.log (slotOf m.body.seq)).clientReqId = m.body.clientReqId ∧
  n.executedAt m.body.seq = recordOf m

structure ReplicaInv (hash : Bytes → Nat) (preload : KVStore) (n : Bandle) : Prop where
  slots : ∀ k, (n.log k).seq ≠ 0 → ∃ m ∈ n.hist.handled, k = slotOf m.body.seq ∧ Holds n m
  free : ∀ k, (n.log k).seq = 0 → (n.log k).decided = false
  count : n.hist.executed.length + 1 = n.executeNext
  executed : ∀ k r, n.hist.executed[k]? = some r →
    ∃ m ∈ n.hist.handled, m.body.seq = k + 1 ∧ r = recordOf m
  store : n.kv = n.hist.executed.foldl (applyRecord hash) preload
  completed : ∀ q ∈ n.acct.completed, q < n.executeNext ∧
    ∃ m ∈ n.hist.handled, m.body.seq = q ∧ m.body.proposer = n.cfg.nodeId

variable {hash : Bytes → Nat} {tsc : Nat → Nat} {preload : KVStore}

theorem ReplicaInv.started (cfg : Settings) (now : Nat) :
    ReplicaInv hash preload (Bandle.started cfg preload now) where
  slots k used := absurd rfl used
  free _ _ := rfl
  count := rfl
  executed k r found := by simp [Bandle.started] at found
  store := rfl
  completed q member := by simp [Bandle.started] at member

/-- The invariant reads only these members. -/
theorem ReplicaInv.frame {n n' : Bandle} (h : ReplicaInv hash preload n)
    (cfg : n'.cfg = n.cfg) (log : n'.log = n.log) (payloads : n'.logPayloads = n.logPayloads)
    (next : n'.executeNext = n.executeNext) (kv : n'.kv = n.kv)
    (handled : n'.hist.handled = n.hist.handled) (executed : n'.hist.executed = n.hist.executed)
    (completed : n'.acct.completed = n.acct.completed) : ReplicaInv hash preload n' := by
  have holds : ∀ m, Holds n m → Holds n' m := by
    intro m held
    simpa only [Holds, executedAt, log, payloads] using held
  refine ⟨?_, ?_, ?_, ?_, ?_, ?_⟩
  · intro k used
    rw [log] at used
    obtain ⟨m, member, slot, held⟩ := h.slots k used
    exact ⟨m, by rw [handled]; exact member, slot, holds m held⟩
  · rw [log]
    exact h.free
  · rw [executed, next]
    exact h.count
  · rw [executed, handled]
    exact h.executed
  · rw [executed, kv]
    exact h.store
  · rw [completed, next, handled, cfg]
    exact h.completed

/-- The batch entry built for a slot acts on the store like the direct path on the
recorded request: both take the shard from the key. -/
theorem applyOpAt_record (n : Bandle) (kv : KVStore) (seq : Nat) :
    kv.applyOpsInOrder (n.applyOpAt hash seq) = applyRecord hash kv (n.executedAt seq) := by
  unfold applyOpAt applyRecord executedAt
  dsimp only
  by_cases accepted : (n.log (slotOf seq)).decision = 1
  · by_cases put : (n.log (slotOf seq)).op = opP
    · have notErase : opP ≠ opD := by decide
      simp [accepted, put, isWriteOp, directApply, notErase, KVStore.applyOp_put]
    · by_cases upd : (n.log (slotOf seq)).op = opU
      · have notPut : opU ≠ opP := by decide
        have notErase : opU ≠ opD := by decide
        simp [accepted, upd, isWriteOp, directApply, notPut, notErase, KVStore.applyOp_update]
      · by_cases del : (n.log (slotOf seq)).op = opD
        · have notPut : opD ≠ opP := by decide
          have notUpdate : opD ≠ opU := by decide
          simp [accepted, del, isWriteOp, directApply, notPut, notUpdate, KVStore.applyOp_erase]
        · simp [accepted, put, upd, del, isWriteOp, directApply]
  · simp [accepted]

theorem executedAt_congr {n n' : Bandle} {seq : Nat}
    (log : n'.log (slotOf seq) = n.log (slotOf seq))
    (payload : n'.logPayloads (slotOf seq) = n.logPayloads (slotOf seq)) :
    n'.executedAt seq = n.executedAt seq := by
  simp only [executedAt, log, payload]

/-- A slot other than the written one keeps what it holds. -/
theorem Holds.of_slot {n n' : Bandle} {m : BandleMessage} (held : Holds n m)
    (log : n'.log (slotOf m.body.seq) = n.log (slotOf m.body.seq))
    (payload : n'.logPayloads (slotOf m.body.seq) = n.logPayloads (slotOf m.body.seq)) :
    Holds n' m := by
  have record := executedAt_congr log payload
  simp only [Holds, log, record]
  exact held

/-- Storing a well-formed proposal in a reset entry. -/
theorem recordProposal_holds (n : Bandle) {p : Nat} {m : BandleMessage} (wf : WellFormed p m)
    (other : (n.log (slotOf m.body.seq)).seq ≠ m.body.seq) : Holds (n.recordProposal m) m := by
  have small := wf.fits
  unfold Holds executedAt recordProposal claimEntry
  simp only [Function.update_self, if_pos other, storeProposal, resetLogEntry, Bool.false_eq_true,
    if_false]
  by_cases bare : m.body.op = opG ∨ m.body.op = opN
  · obtain ⟨keyZero, valueZero⟩ := wf.bare bare
    simp [bare, recordOf, BandlePayload.key, BandlePayload.val, keyZero, valueZero, Mem.load]
  · have key : (Mem.store (n.logPayloads (slotOf m.body.seq)) 0
        (m.body.data.load 0 (m.body.keyLen + m.body.valueLen))).load 0 m.body.keyLen =
        m.body.data.load 0 m.body.keyLen :=
      Mem.load_store_load _ _ _ _ _ _ (by omega)
    have value := Mem.load_store_load_tail (n.logPayloads (slotOf m.body.seq)) m.body.data 0 0
      (m.body.keyLen + m.body.valueLen) m.body.keyLen m.body.valueLen (Nat.le_refl _)
    simp only [Nat.zero_add] at value
    simp [bare, small, recordOf, BandlePayload.key, BandlePayload.val, key, value]

/-- A proposal for a number whose entry is already stored changes nothing in it. -/
theorem recordProposal_known (n : Bandle) {m m' : BandleMessage} (held : Holds n m')
    (same : m'.body.seq = m.body.seq) : Holds (n.recordProposal m) m' := by
  obtain ⟨seq, known, decided, decision, client, record⟩ := held
  rw [same] at seq known decided decision client record
  have claimed : n.claimEntry m.body.seq = n.log (slotOf m.body.seq) := by simp [claimEntry, seq]
  have stored : storeProposal (n.log (slotOf m.body.seq)) (n.logPayloads (slotOf m.body.seq)) m.body =
      (n.log (slotOf m.body.seq), n.logPayloads (slotOf m.body.seq)) := by
    simp [storeProposal, known]
  unfold Holds
  rw [same]
  simp only [recordProposal, claimed, stored, Function.update_self, executedAt]
  refine ⟨seq, known, trivial, trivial, client, ?_⟩
  rw [← record]
  simp only [executedAt, decision]

theorem recordProposal_other (n : Bandle) {m m' : BandleMessage} (held : Holds n m')
    (apart : slotOf m'.body.seq ≠ slotOf m.body.seq) : Holds (n.recordProposal m) m' := by
  apply held.of_slot
  · simp only [recordProposal, Function.update_of_ne apart]
  · simp only [recordProposal, Function.update_of_ne apart]

theorem ReplicaInv.recordProposal {n : Bandle} (h : ReplicaInv hash preload n) {p : Nat}
    {m : BandleMessage} (wf : WellFormed p m) (pos : 1 ≤ m.body.seq) :
    ReplicaInv hash preload (n.recordProposal m) := by
  have handled : (n.recordProposal m).hist.handled = n.hist.handled ++ [m] := rfl
  refine ⟨?_, ?_, h.count, ?_, h.store, ?_⟩
  · intro k used
    by_cases here : k = slotOf m.body.seq
    · by_cases same : (n.log (slotOf m.body.seq)).seq = m.body.seq
      · obtain ⟨m', member, slot, held⟩ := h.slots (slotOf m.body.seq) (by omega)
        have number : m'.body.seq = m.body.seq := by rw [← held.1, ← slot, same]
        exact ⟨m', by rw [handled]; exact List.mem_append_left _ member, by rw [here, number],
          recordProposal_known n held number⟩
      · exact ⟨m, by rw [handled]; simp, here, recordProposal_holds n wf same⟩
    · have kept : (n.recordProposal m).log k = n.log k := by
        simp only [Bandle.recordProposal, Function.update_of_ne here]
      rw [kept] at used
      obtain ⟨m', member, slot, held⟩ := h.slots k used
      exact ⟨m', by rw [handled]; exact List.mem_append_left _ member, slot,
        recordProposal_other n held (by rw [← slot]; exact here)⟩
  · intro k zero
    by_cases here : k = slotOf m.body.seq
    · exfalso
      have number : ((n.recordProposal m).log k).seq = m.body.seq := by
        rw [here]
        simp only [Bandle.recordProposal, Function.update_self, claimEntry, storeProposal]
        by_cases same : (n.log (slotOf m.body.seq)).seq = m.body.seq
        · simp only [same, ne_eq, not_true_eq_false, if_false]
          split_ifs <;> simp [same]
        · simp only [ne_eq, same, not_false_eq_true, if_true]
          split_ifs <;> simp [resetLogEntry]
      omega
    · have kept : (n.recordProposal m).log k = n.log k := by
        simp only [Bandle.recordProposal, Function.update_of_ne here]
      rw [kept] at zero ⊢
      exact h.free k zero
  · intro k r found
    obtain ⟨m', member, rest⟩ := h.executed k r found
    exact ⟨m', by rw [handled]; exact List.mem_append_left _ member, rest⟩
  · intro q member
    obtain ⟨lt, m', belongs, rest⟩ := h.completed q member
    exact ⟨lt, m', by rw [handled]; exact List.mem_append_left _ belongs, rest⟩

/-- Completion adds at most the executed number, and only for an own entry. -/
theorem completeOwn_completed (tsc : Nat → Nat) (nodeId seq : Nat) (e : LogEntry) (st : Accounting × Bool) :
    (completeOwn tsc nodeId seq e st).1.completed = st.1.completed ∨
      ((completeOwn tsc nodeId seq e st).1.completed = st.1.completed ++ [e.seq] ∧
        e.proposer = nodeId) := by
  unfold completeOwn completePending
  dsimp only
  split_ifs with own
  all_goals first
    | exact Or.inl rfl
    | exact Or.inr ⟨rfl, own.2.1⟩

/-- One executed entry: it comes from a handled proposal with its number. -/
theorem ReplicaInv.executeEntry {n : Bandle} (flag : Bool) (h : ReplicaInv hash preload n)
    (ready : n.Executable n.executeNext) :
    ReplicaInv hash preload (Bandle.executeEntry hash tsc (n, flag)).1 := by
  have counted := h.count
  obtain ⟨m, member, slot, held⟩ := h.slots (slotOf n.executeNext) (by rw [ready.1]; omega)
  have number : m.body.seq = n.executeNext := by rw [← held.1, ← slot, ready.1]
  have record : n.executedAt n.executeNext = recordOf m := by
    rw [← number]
    exact held.2.2.2.2.2
  have executedEq : (Bandle.executeEntry hash tsc (n, flag)).1.hist.executed =
    n.hist.executed ++ [n.executedAt n.executeNext] := rfl
  refine ⟨?_, ?_, ?_, ?_, ?_, ?_⟩
  · intro k used
    by_cases here : k = slotOf n.executeNext
    · simp [Bandle.executeEntry, completeEntry, here, resetLogEntry] at used
    · have kept : (Bandle.executeEntry hash tsc (n, flag)).1.log k = n.log k := by
        simp only [Bandle.executeEntry, completeEntry, Function.update_of_ne here]
      rw [kept] at used
      obtain ⟨m', member', slot', held'⟩ := h.slots k used
      refine ⟨m', member', slot', held'.of_slot ?_ rfl⟩
      rw [← slot']
      exact kept
  · intro k zero
    by_cases here : k = slotOf n.executeNext
    · simp [Bandle.executeEntry, completeEntry, here, resetLogEntry]
    · have kept : (Bandle.executeEntry hash tsc (n, flag)).1.log k = n.log k := by
        simp only [Bandle.executeEntry, completeEntry, Function.update_of_ne here]
      rw [kept] at zero ⊢
      exact h.free k zero
  · rw [executedEq, List.length_append]
    exact congrArg (· + 1) h.count
  · intro k r found
    rw [executedEq, List.getElem?_append] at found
    split at found
    · exact h.executed k r found
    · next past =>
      have last : k = n.hist.executed.length := by
        by_contra other
        rw [List.getElem?_eq_none (by simp; omega)] at found
        cases found
      simp only [last, Nat.sub_self, List.getElem?_cons_zero, Option.some.injEq] at found
      exact ⟨m, member, by omega, by rw [← found, record]⟩
  · have storeEq : (Bandle.executeEntry hash tsc (n, flag)).1.kv =
      n.kv.applyOpsInOrder (n.applyOpAt hash n.executeNext) := rfl
    rw [storeEq, applyOpAt_record, executedEq, List.foldl_append, ← h.store]
    rfl
  · intro q belongs
    have next : (Bandle.executeEntry hash tsc (n, flag)).1.executeNext = n.executeNext + 1 := rfl
    rw [next]
    have cases := completeOwn_completed tsc n.cfg.nodeId n.executeNext
      (n.log (slotOf n.executeNext)) (n.acct, flag)
    have old : q ∈ n.acct.completed → q < n.executeNext + 1 ∧
        ∃ m ∈ n.hist.handled, m.body.seq = q ∧ m.body.proposer = n.cfg.nodeId := by
      intro before
      obtain ⟨lt, rest⟩ := h.completed q before
      exact ⟨by omega, rest⟩
    change q ∈ (completeOwn tsc n.cfg.nodeId n.executeNext (n.log (slotOf n.executeNext))
      (n.acct, flag)).1.completed at belongs
    rcases cases with same | ⟨added, own⟩
    · rw [same] at belongs
      exact old belongs
    · rw [added, List.mem_append, List.mem_singleton] at belongs
      rcases belongs with before | new
      · exact old before
      · rw [ready.1] at new
        refine ⟨by omega, m, member, by omega, ?_⟩
        have proposer := congrArg Executed.proposer record
        exact proposer.symm.trans own

theorem ReplicaInv.advance {n : Bandle} (h : ReplicaInv hash preload n) :
    ReplicaInv hash preload (n.advanceExecuteLocked hash tsc) :=
  advance_invariant n (fun _ _ inv => inv.frame rfl rfl rfl rfl rfl rfl rfl rfl)
    (fun _ flag inv ready => inv.executeEntry flag ready) h

/-- A batch of proposals, recorded one after the other. -/
def recordAll (n : Bandle) (msgs : List BandleMessage) : Bandle := msgs.foldl recordProposal n

theorem ReplicaInv.recordAll {n : Bandle} (h : ReplicaInv hash preload n)
    {msgs : List BandleMessage}
    (ok : ∀ m ∈ msgs, (∃ p, WellFormed p m) ∧ 1 ≤ m.body.seq) :
    ReplicaInv hash preload (Invariant.recordAll n msgs) := by
  induction msgs generalizing n with
  | nil => exact h
  | cons m rest ih =>
    obtain ⟨⟨p, wf⟩, pos⟩ := ok m (by simp)
    exact ih (h.recordProposal wf pos) fun m' member => ok m' (by simp [member])

end BandleCxl.Invariant
