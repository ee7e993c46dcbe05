import BandleCxl.Source.Slot

/-!
`nt_store_payload_padded` with a record of its accesses: the source bytes that it loads and
the addresses of its 16-byte stores.
-/
namespace BandleCxl.Source
open Library

structure PayloadTrace where
  payloads : Mem
  reads : List Nat := []
  stores : List Nat := []

namespace PayloadTrace

/-- `count` bytes of the source from offset `off` on are loaded. -/
def load (t : PayloadTrace) (off count : Nat) : PayloadTrace :=
  { t with reads := t.reads ++ (List.range count).map (off + ·) }

def ntStore16 (t : PayloadTrace) (dst : Nat) (src : Bytes) : PayloadTrace :=
  { t with payloads := Source.ntStore16 t.payloads dst src, stores := t.stores ++ [dst] }

def ntStore16s (dst : Nat) (data : Mem) : Nat → Nat → PayloadTrace → PayloadTrace
  | _, 0, t => t
  | off, count + 1, t =>
    ntStore16s dst data (off + 16) count ((t.load off 16).ntStore16 (dst + off) (data.load off 16))

def ntStoreLines (dst : Nat) (data : Mem) : Nat → Nat → PayloadTrace → PayloadTrace
  | _, 0, t => t
  | off, lines + 1, t => ntStoreLines dst data (off + 64) lines (ntStore16s dst data off 4 t)

/-- The steps of `ntStorePayloadPadded`, one by one. The last store reads `tmp`, to which
only `len - off` bytes of the source were copied. -/
def ntStorePayloadPadded (payloads : Mem) (idx : Nat) (data : Mem) (len : Nat) : PayloadTrace :=
  if len = 0 then { payloads }
  else
    let dst := idx * kMaxValueBytes
    let full := len / 64 * 64
    let lines := ntStoreLines dst data 0 (len / 64) { payloads }
    let rest := ntStore16s dst data full ((len - full) / 16) lines
    let off := full + (len - full) / 16 * 16
    if off < len then
      (rest.load off (len - off)).ntStore16 (dst + off)
        (data.load off (len - off) ++ List.replicate (16 - (len - off)) 0)
    else rest

theorem ntStore16s_payloads (dst : Nat) (data : Mem) (off count : Nat) (t : PayloadTrace) :
    (ntStore16s dst data off count t).payloads = Source.ntStore16s dst data off count t.payloads := by
  induction count generalizing off t with
  | zero => rfl
  | succ count ih => exact ih (off + 16) _

theorem ntStoreLines_payloads (dst : Nat) (data : Mem) (off lines : Nat) (t : PayloadTrace) :
    (ntStoreLines dst data off lines t).payloads =
      Source.ntStoreLines dst data off lines t.payloads := by
  induction lines generalizing off t with
  | zero => rfl
  | succ lines ih =>
    rw [ntStoreLines, ih, ntStore16s_payloads]
    rfl

/-- The record changes nothing. -/
theorem ntStorePayloadPadded_payloads (payloads : Mem) (idx : Nat) (data : Mem) (len : Nat) :
    (ntStorePayloadPadded payloads idx data len).payloads =
      Source.ntStorePayloadPadded payloads idx data len := by
  unfold ntStorePayloadPadded Source.ntStorePayloadPadded
  split
  · rfl
  · dsimp only
    rw [← ntStoreLines_payloads (t := { payloads }), ← ntStore16s_payloads]
    split <;> rfl

end PayloadTrace

end BandleCxl.Source
