import BandleCxl.Invariant.RingConsumer

/-!
What a ring holds: the messages that are published and not committed, oldest first.
-/
namespace BandleCxl.Invariant
open Library Source

/-- The published messages that are not committed. -/
def unread (ring : SpscRing) : List BandleMessage :=
  ring.hist.published.drop ring.hist.committed.length

variable {r : RingShape} {ring ring' : SpscRing}

theorem unread_length : (unread ring).length =
    ring.hist.published.length - ring.hist.committed.length :=
  List.length_drop

/-- Publishing adds at the end. -/
theorem unread_grown {msgs : List BandleMessage} (inv : RingInv r ring)
    (published : ring'.hist.published = ring.hist.published ++ msgs)
    (committed : ring'.hist.committed = ring.hist.committed) :
    unread ring' = unread ring ++ msgs := by
  rw [unread, unread, published, committed, List.drop_append_of_le_length inv.occupancy.1]

/-- Committing takes from the front. -/
theorem unread_shrunk {got : List BandleMessage}
    (published : ring'.hist.published = ring.hist.published)
    (committed : ring'.hist.committed = ring.hist.committed ++ got) :
    unread ring' = (unread ring).drop got.length := by
  rw [unread, unread, published, committed, List.drop_drop, List.length_append]

/-- The records that a committing reader hands out are the oldest in the queue. -/
theorem taken_same {tail read : Nat} (inv : RingInv r ring)
    (here : ring.consumer = .commit tail read) :
    read ≤ (unread ring).length ∧
      List.Forall₂ SameMessage ((unread ring).take read) ((List.range read).map ring.out) := by
  have consumer := inv.consumer
  rw [here] at consumer
  obtain ⟨reading, copied⟩ := consumer
  have seen := inv.seenHead_le
  have available := reading.available
  have inside : read ≤ (unread ring).length := by
    rw [unread_length]
    omega
  refine ⟨inside, List.forall₂_iff_get.mpr ⟨?_, fun k below below' => ?_⟩⟩
  · rw [List.length_take, List.length_map, List.length_range]
    omega
  · have lt : k < read := by simpa using below'
    obtain ⟨sent, found, same⟩ := copied k lt
    have got := List.getElem?_eq_some_iff.mp found
    simpa [unread, got.2] using same

end BandleCxl.Invariant
