import BandleCxl.Guarantees.RingFifo

/-!
Payload bytes over memory that hardware does not keep coherent. The read path never
flushes a line, so a line the reader still holds from the warm-up or from an earlier
lap answers in place of what the sender stored. Delivered bytes are right in every
run in which the reader holds no line of a payload when it accepts its descriptor.
-/
namespace BandleCxl.Guarantees
open Library Source Invariant

theorem key_of_same {sent got : BandleMessage} (h : SameMessage sent got) :
    got.body.key = sent.body.key := by
  have same := Mem.load_eq_iff.mp h.data
  unfold BandlePayload.key
  rw [h.keyLen]
  exact Mem.load_eq_iff.mpr fun i inside => same i (by omega)

theorem val_of_same {sent got : BandleMessage} (h : SameMessage sent got) :
    got.body.val = sent.body.val := by
  have same := Mem.load_eq_iff.mp h.data
  unfold BandlePayload.val
  rw [h.keyLen, h.valueLen]
  refine Mem.load_eq_iff.mpr fun i inside => ?_
  have byte := same (sent.body.keyLen + i) (by omega)
  rwa [Nat.zero_add] at byte

end BandleCxl.Guarantees
