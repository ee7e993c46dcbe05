import BandleCxl.Invariant.RingConsumer

/-!
The ring as a FIFO queue, over coherent memory: its occupancy never exceeds the
capacity, the producer never writes into an occupied slot, and what the consumer
commits is a prefix of what was published. No bound on the run: the 64-bit counters
may wrap any number of times.
-/
namespace BandleCxl.Guarantees
open Library Source Invariant

/-- The slot the producer is about to write. -/
def writesSlot (r : RingShape) : ProducerPc → Option Nat
  | .payload h _ i | .descriptor h _ i => some (r.slot (add64 h i))
  | _ => none

/-- The producer is inside a batch that it has room for. -/
theorem writing_of_writesSlot {r : RingShape} {s : SpscRing} (h : RingInv r s) {slot : Nat}
    (writes : writesSlot r s.producer = some slot) :
    ∃ head msgs i, slot = r.slot (add64 head i) ∧ i < msgs.length ∧
      Writing r s.hist.published.length (s.hist.tailCount s.producerSaw) head msgs := by
  have inv := h.producer
  unfold writesSlot at writes
  split at writes
  · next head msgs i pc =>
    cases writes
    rw [pc] at inv
    exact ⟨head, msgs, i, rfl, inv.2.1, inv.1⟩
  · next head msgs i pc =>
    cases writes
    rw [pc] at inv
    obtain ⟨writing, -, m, found, -⟩ := inv
    exact ⟨head, msgs, i, rfl, (List.getElem?_eq_some_iff.mp found).1, writing⟩
  · cases writes

theorem forall₂_of_getElem? {α β : Type*} {R : α → β → Prop} {xs : List α} {ys : List β}
    (related : ∀ (k : Nat) y, ys[k]? = some y → ∃ x, xs[k]? = some x ∧ R x y) :
    List.Forall₂ R (xs.take ys.length) ys := by
  have covered : ys.length ≤ xs.length := by
    by_contra short
    obtain ⟨x, found, -⟩ := related xs.length _ (List.getElem?_eq_getElem (by omega))
    have := (List.getElem?_eq_some_iff.mp found).1
    omega
  refine List.forall₂_iff_get.mpr ⟨by simp [covered], fun k inside below => ?_⟩
  obtain ⟨x, found, holds⟩ := related k _ (List.getElem?_eq_getElem below)
  obtain ⟨bound, same⟩ := List.getElem?_eq_some_iff.mp found
  simp only [List.get_eq_getElem, List.getElem_take, same]
  exact holds

/-- In every reachable state: at most `Capacity` messages lie between the counters,
the slot the producer is about to write is none of theirs, and the committed messages
are the first published ones, in order, equal in every field and payload byte. -/
theorem ring_faithful_fifo (r : RingShape) (coherent : r.coherent = true) (s : SpscRing)
    (reached : (ringSystem r).Reachable s) :
    sub64 s.head.value s.tail.value ≤ r.capacity ∧
    (∀ slot, writesSlot r s.producer = some slot →
      ∀ k < sub64 s.head.value s.tail.value, r.slot (add64 s.tail.value k) ≠ slot) ∧
    ∃ sent rest, s.hist.published = sent ++ rest ∧
      List.Forall₂ SameMessage sent s.hist.committed := by
  have h := ring_reachable (reached.under fun _ _ _ _ _ => Or.inl coherent)
  have occupied := h.occupancy
  have small := capacity_small r
  rw [h.head.value_eq, h.tail.value_eq, sub64_mod occupied.1 (by omega)]
  refine ⟨by omega, fun slot writes k inside => ?_, ?_⟩
  · obtain ⟨head, msgs, i, rfl, within, writing⟩ := writing_of_writesSlot h writes
    rw [writing.head, slot_add64, slot_add64]
    exact h.write_apart writing within (by omega) (by omega)
  · exact ⟨_, _, (List.take_append_drop s.hist.committed.length _).symm,
      forall₂_of_getElem? h.delivered⟩

/-- A put of the one-byte key `7`. -/
def oneByteKey : BandleMessage where
  body := { op := opP, keyLen := 1, data := fun _ => 7 }

def freshRing : SpscRing := .initial (fun _ => {}) fun _ => oneByteKey

theorem freshRing_start (r : RingShape) : (ringSystem r).init freshRing := ⟨_, _, rfl⟩

/-- The producer pushes one message and the consumer asks for it. -/
def pushThenAsk : List RingAction :=
  [.startPush (.push oneByteKey), .loadHeadOwn, .loadTailPeer 0, .storePayload, .storeDescriptor,
    .storeHead, .startPop (.drain 1), .loadTailOwn, .loadHeadPeer 1]

/-- The consumer copies the payload and commits. -/
def copyThenCommit : List RingAction := [.readPayload false, .finish, .storeTail]

def pushThenDrain : List RingAction := pushThenAsk ++ .readDescriptor false :: copyThenCommit

theorem ring_faithful_fifo_pushThenDrain :
    ∃ s, (ringSystem (bandleRing true)).run freshRing pushThenDrain = some s ∧
      s.hist.published.length = 1 ∧ s.hist.committed.length = 1 ∧
      sub64 s.head.value s.tail.value ≤ 32768 ∧
      ∃ sent rest, s.hist.published = sent ++ rest ∧
        List.Forall₂ SameMessage sent s.hist.committed := by
  refine ⟨_, rfl, rfl, rfl, ?_⟩
  have fifo := ring_faithful_fifo (bandleRing true) rfl _
    (.of_run pushThenDrain (.start (freshRing_start _)) rfl)
  exact ⟨fifo.1, fifo.2.2⟩

end BandleCxl.Guarantees
