import BandleCxl.Source.MemoryCluster

/-!
The reader of a ring in `drain_source_ring`: it asks for a batch, and what it commits is what it
has read.
-/
namespace BandleCxl.Invariant
open Library Source

/-- The call on a ring asks for at most `cap` messages, and commits at least one. -/
def WithinBatch (cap : Nat) : ConsumerPc → Prop
  | .idle => True
  | .called call | .gotTail call _ => call = .drain cap
  | .descriptor call _ count _ _ _ | .payload call _ count _ _ _ | .returned call _ count _ =>
    call = .drain cap ∧ count ≤ cap
  | .commit _ read => 1 ≤ read ∧ read ≤ cap

theorem WithinBatch.afterDescriptors {cap t count read c : Nat} {call : PopCall}
    (h : call = .drain cap ∧ count ≤ cap) :
    WithinBatch cap (SpscRing.afterDescriptors call t count read c) := by
  unfold SpscRing.afterDescriptors
  split <;> exact h

theorem WithinBatch.nextDescriptor {cap t count read c : Nat} {call : PopCall}
    (h : call = .drain cap ∧ count ≤ cap) :
    WithinBatch cap (SpscRing.nextDescriptor call t count read c) := by
  unfold SpscRing.nextDescriptor
  split <;> exact h

theorem WithinBatch.step {r : RingShape} {cap : Nat} {ring ring' : SpscRing} {a : RingAction}
    (h : WithinBatch cap ring.consumer) (reads : a.isConsumer = true)
    (starts : ∀ call, a = .startPop call → call = .drain cap)
    (stepped : ring.step r a = some ring') : WithinBatch cap ring'.consumer := by
  cases a with
  | startPush | loadHeadOwn | loadTailPeer | storePayload | storeDescriptor | storeHead | abandon =>
    cases reads
  | startPop call =>
    simp only [SpscRing.step, SpscRing.startPopStep] at stepped
    split at stepped
    · cases stepped
      exact starts call rfl
    · cases stepped
  | loadTailOwn =>
    simp only [SpscRing.step, SpscRing.loadTailOwnStep] at stepped
    split at stepped
    · next here =>
      cases stepped
      rw [here] at h
      exact h
    · cases stepped
  | loadHeadPeer v =>
    simp only [SpscRing.step, SpscRing.loadHeadPeerStep] at stepped
    split at stepped
    · next here =>
      rw [here] at h
      split at stepped
      · cases stepped
        have call : _ = PopCall.drain cap := h
        dsimp only
        split
        · trivial
        · refine ⟨call, ?_⟩
          rw [call]
          exact Nat.min_le_right _ _
      · cases stepped
    · cases stepped
  | readDescriptor prefetch =>
    simp only [SpscRing.step, SpscRing.readDescriptorStep] at stepped
    split at stepped
    · next here =>
      rw [here] at h
      repeat' split at stepped
      all_goals cases stepped
      · exact .afterDescriptors h
      · exact h
      · exact .afterDescriptors h
      · exact .afterDescriptors h
      · exact .nextDescriptor h
      · exact .nextDescriptor h
    · cases stepped
  | readPayload prefetch =>
    simp only [SpscRing.step, SpscRing.readPayloadStep] at stepped
    split at stepped
    · next here =>
      rw [here] at h
      split at stepped
      all_goals
        cases stepped
        dsimp only
        split <;> exact h
    · cases stepped
  | retry =>
    simp only [SpscRing.step, SpscRing.retryStep] at stepped
    repeat' split at stepped
    all_goals cases stepped
    next here _ =>
      rw [here] at h
      exact h
  | finish =>
    simp only [SpscRing.step, SpscRing.finishStep] at stepped
    repeat' split at stepped
    all_goals cases stepped
    next here all =>
      rw [here] at h
      exact ⟨Nat.pos_of_ne_zero all.2, all.1 ▸ h.2⟩
  | quit =>
    simp only [SpscRing.step, SpscRing.quitStep] at stepped
    split at stepped
    · next here =>
      rw [here] at h
      split at stepped
      · next partly =>
        cases stepped
        dsimp only
        split
        · trivial
        · next some => exact ⟨Nat.pos_of_ne_zero some, Nat.le_trans (Nat.le_of_lt partly) h.2⟩
      · cases stepped
    · cases stepped
  | storeTail =>
    simp only [SpscRing.step, SpscRing.storeTailStep] at stepped
    split at stepped
    · cases stepped
      trivial
    · cases stepped
  | evict line =>
    cases stepped
    exact h

/-- Only the store of the tail hands a batch over. -/
theorem committed_step {r : RingShape} {ring ring' : SpscRing} {a : RingAction}
    (reads : a.isConsumer = true) (stepped : ring.step r a = some ring') :
    (∃ t read, a = .storeTail ∧ ring.consumer = .commit t read ∧ ring'.consumer = .idle ∧
      ring'.hist.committed = ring.hist.committed ++ (List.range read).map ring.out) ∨
    a ≠ .storeTail ∧ ring'.hist.committed = ring.hist.committed := by
  cases a with
  | startPush | loadHeadOwn | loadTailPeer | storePayload | storeDescriptor | storeHead | abandon =>
    cases reads
  | storeTail =>
    simp only [SpscRing.step, SpscRing.storeTailStep] at stepped
    split at stepped
    · next t read here =>
      cases stepped
      exact Or.inl ⟨t, read, rfl, here, rfl, rfl⟩
    · cases stepped
  | _ =>
    refine Or.inr ⟨fun same => (by cases same), ?_⟩
    simp only [SpscRing.step, SpscRing.startPopStep, SpscRing.loadTailOwnStep,
      SpscRing.loadHeadPeerStep, SpscRing.readDescriptorStep, SpscRing.readPayloadStep,
      SpscRing.retryStep, SpscRing.finishStep, SpscRing.quitStep] at stepped
    repeat' split at stepped
    all_goals cases stepped <;> rfl

/-- A reader that is in no call enters one, or stays where it is. -/
theorem idle_step {r : RingShape} {ring ring' : SpscRing} {a : RingAction}
    (idle : ring.consumer.isIdle = true) (reads : a.isConsumer = true)
    (stepped : ring.step r a = some ring') :
    ring'.consumer.isIdle = true ∨ ∃ call, a = .startPop call := by
  have here : ring.consumer = .idle := by
    cases place : ring.consumer <;> simp_all [ConsumerPc.isIdle]
  cases a with
  | startPop call => exact Or.inr ⟨call, rfl⟩
  | evict line =>
    cases stepped
    exact Or.inl idle
  | startPush | loadHeadOwn | loadTailPeer | storePayload | storeDescriptor | storeHead | abandon =>
    cases reads
  | _ =>
    simp only [SpscRing.step, SpscRing.loadTailOwnStep, SpscRing.loadHeadPeerStep,
      SpscRing.readDescriptorStep, SpscRing.readPayloadStep, SpscRing.retryStep,
      SpscRing.finishStep, SpscRing.quitStep, SpscRing.storeTailStep, here] at stepped
    cases stepped

end BandleCxl.Invariant
