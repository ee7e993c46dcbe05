import BandleCxl.Source.SlotTrace

/-!
The payload store stays inside its slot: what it reads of the source, where it stores, and
which bytes of the ring it changes.
-/
namespace BandleCxl.Guarantees
open Library Source

/-- Reads stay below `len`, and stores are at 16-byte offsets below `len`. -/
structure Confined (dst len : Nat) (t : PayloadTrace) : Prop where
  reads : ∀ r ∈ t.reads, r < len
  stores : ∀ a ∈ t.stores, ∃ off, a = dst + off ∧ off % 16 = 0 ∧ off < len

namespace Confined

variable {dst len : Nat} {t : PayloadTrace}

theorem start (payloads : Mem) : Confined dst len { payloads } := ⟨by simp, by simp⟩

/-- One store of `count` bytes of the source and some padding. -/
theorem step (confined : Confined dst len t) {off count : Nat} (src : Bytes)
    (aligned : off % 16 = 0) (inside : off + count ≤ len) (some : 0 < count) :
    Confined dst len ((t.load off count).ntStore16 (dst + off) src) := by
  constructor
  · intro r member
    rcases List.mem_append.mp member with early | now
    · exact confined.reads r early
    · obtain ⟨i, range, rfl⟩ := List.mem_map.mp now
      have := List.mem_range.mp range
      omega
  · intro a member
    rcases List.mem_append.mp member with early | now
    · exact confined.stores a early
    · exact ⟨off, List.mem_singleton.mp now, aligned, by omega⟩

theorem ntStore16s (confined : Confined dst len t) (data : Mem) {off count : Nat}
    (aligned : off % 16 = 0) (inside : off + 16 * count ≤ len) :
    Confined dst len (PayloadTrace.ntStore16s dst data off count t) := by
  induction count generalizing off t with
  | zero => exact confined
  | succ count ih =>
    exact ih (confined.step _ aligned (by omega) (by decide)) (by omega) (by omega)

theorem ntStoreLines (confined : Confined dst len t) (data : Mem) {off lines : Nat}
    (aligned : off % 16 = 0) (inside : off + 64 * lines ≤ len) :
    Confined dst len (PayloadTrace.ntStoreLines dst data off lines t) := by
  induction lines generalizing off t with
  | zero => exact confined
  | succ lines ih =>
    exact ih (confined.ntStore16s data aligned (by omega)) (by omega) (by omega)

theorem ntStorePayloadPadded (payloads : Mem) (idx : Nat) (data : Mem) (len : Nat) :
    Confined (idx * kMaxValueBytes) len
      (PayloadTrace.ntStorePayloadPadded payloads idx data len) := by
  unfold PayloadTrace.ntStorePayloadPadded
  split
  · exact start payloads
  · have lines : Confined (idx * kMaxValueBytes) len
        (PayloadTrace.ntStoreLines (idx * kMaxValueBytes) data 0 (len / 64) { payloads }) :=
      (start payloads).ntStoreLines data (by omega) (by omega)
    have rest : Confined (idx * kMaxValueBytes) len
        (PayloadTrace.ntStore16s (idx * kMaxValueBytes) data (len / 64 * 64)
          ((len - len / 64 * 64) / 16) _) :=
      lines.ntStore16s data (by omega) (by omega)
    dsimp only
    split
    · exact rest.step _ (by omega) (by omega) (by omega)
    · exact rest

end Confined

/-- For every ring, slot, source and length that fits: the slot gets the bytes, no other slot
and nothing beyond the sixteen bytes begun last changes, no source byte beyond the length is
read, and every store is at a 16-byte offset of the slot. -/
theorem payload_store_in_slot {capacity : Nat} (payloads data : Mem) (idx : Fin capacity)
    {len : Nat} (fits : len ≤ kMaxValueBytes) :
    let t := PayloadTrace.ntStorePayloadPadded payloads idx data len
    let after := ntStorePayloadPadded payloads idx data len
    t.payloads = after ∧
      (∀ i < len, after (idx * kMaxValueBytes + i) = data i) ∧
      (∀ other : Fin capacity, other ≠ idx → ∀ i < kMaxValueBytes,
        after (other * kMaxValueBytes + i) = payloads (other * kMaxValueBytes + i)) ∧
      (∀ i, (len + 15) / 16 * 16 ≤ i → i < kMaxValueBytes →
        after (idx * kMaxValueBytes + i) = payloads (idx * kMaxValueBytes + i)) ∧
      (∀ r ∈ t.reads, r < len) ∧
      ∀ a ∈ t.stores, ∃ off, a = idx * kMaxValueBytes + off ∧ off % 16 = 0 ∧ off < kMaxValueBytes := by
  intro t after
  have confined := Confined.ntStorePayloadPadded payloads idx data len
  refine ⟨PayloadTrace.ntStorePayloadPadded_payloads payloads idx data len,
    fun i inside => ntStorePayloadPadded_inside payloads idx data inside, ?_, ?_, confined.reads, ?_⟩
  · intro other different i inside
    exact ntStorePayloadPadded_other payloads data fits (fun same => different (Fin.ext same))
      (Nat.le_add_right _ _) (Nat.add_lt_add_left inside _)
  · intro i beyond _
    exact ntStorePayloadPadded_beyond payloads idx data (Or.inr (Nat.add_le_add_left beyond _))
  · intro a member
    obtain ⟨off, place, aligned, inside⟩ := confined.stores a member
    exact ⟨off, place, aligned, Nat.lt_of_lt_of_le inside fits⟩

theorem payload_store_of_full_slot :
    let t := PayloadTrace.ntStorePayloadPadded (fun _ => 0) 3 (fun _ => 7) 1088
    let after := ntStorePayloadPadded (fun _ => 0) 3 (fun _ => 7) 1088
    t.payloads = after ∧
      (∀ i < 1088, after (3 * kMaxValueBytes + i) = 7) ∧
      (∀ other : Fin kBandleRingCapacity, other ≠ ⟨3, by decide⟩ → ∀ i < kMaxValueBytes,
        after (other * kMaxValueBytes + i) = 0) ∧
      (∀ i, (1088 + 15) / 16 * 16 ≤ i → i < kMaxValueBytes →
        after (3 * kMaxValueBytes + i) = 0) ∧
      (∀ r ∈ t.reads, r < 1088) ∧
      ∀ a ∈ t.stores, ∃ off, a = 3 * kMaxValueBytes + off ∧ off % 16 = 0 ∧ off < kMaxValueBytes :=
  payload_store_in_slot (fun _ => 0) (fun _ => 7) (⟨3, by decide⟩ : Fin kBandleRingCapacity)
    (by decide)

end BandleCxl.Guarantees
