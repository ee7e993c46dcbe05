import BandleCxl.Library.Memory

/-!
`CXLMemoryPool::nt_memcpy` (`src/cxl_memory.cpp`). Source and destination are addresses in
one memory, and stores take effect in program order. The lambda `nt_memcpy_avx2` is never
called and left out.
-/
namespace BandleCxl.Source
open Library

/-- `_mm_stream_si64`: eight bytes at any address. -/
def mmStreamSi64 (mem : Mem) (addr : Nat) (v : Bytes) : Mem := mem.store addr v

/-- `_mm512_stream_si512` faults on an address that is not a multiple of 64. -/
def mm512StreamSi512 (mem : Mem) (addr : Nat) (v : Bytes) : Option Mem :=
  if addr % 64 = 0 then some (mem.store addr v) else none

/-- `uint64_t v = 0; std::memcpy(&v, s, n)`: the bytes of a word that is zero beyond them. -/
def paddedWord (mem : Mem) (s n : Nat) : Bytes := mem.load s n ++ List.replicate (8 - n) 0

/-- The variables that the lambdas of `nt_memcpy` capture. -/
structure NtMemcpy where
  mem : Mem
  d : Nat
  s : Nat
  len : Nat

namespace NtMemcpy

/-- The first loop of `nt_memcpy_avx512`, up to an aligned destination. -/
def alignLoop (c : NtMemcpy) : NtMemcpy :=
  if c.len > 0 ∧ c.d &&& 63 ≠ 0 then
    let n := min 8 c.len
    alignLoop
      { mem := mmStreamSi64 c.mem c.d (paddedWord c.mem c.s n)
        d := c.d + n
        s := c.s + n
        len := c.len - n }
  else c
termination_by c.len

/-- The second loop, 64 bytes at a time. -/
def lineLoop (c : NtMemcpy) : Option NtMemcpy :=
  if c.len ≥ 64 then do
    let mem ← mm512StreamSi512 c.mem c.d (c.mem.load c.s 64)
    lineLoop { mem, d := c.d + 64, s := c.s + 64, len := c.len - 64 }
  else some c
termination_by c.len

def avx512 (c : NtMemcpy) : Option NtMemcpy :=
  if c.len < 512 then some c else lineLoop (alignLoop c)

end NtMemcpy

/-- The loop of `nt_memcpy_tail_nt64` and the index it ends at. -/
def tailLoop (dd ss ll i : Nat) (mem : Mem) : Mem × Nat :=
  if i + 8 ≤ ll then
    tailLoop dd ss ll (i + 8) (mmStreamSi64 mem (dd + i) (mem.load (ss + i) 8))
  else (mem, i)
termination_by ll - i

def ntMemcpyTailNt64 (mem : Mem) (dd ss ll : Nat) : Mem :=
  let (mem, i) := tailLoop dd ss ll 0 mem
  if i < ll then mmStreamSi64 mem (dd + i) (paddedWord mem (ss + i) (ll - i)) else mem

/-- `nt_memcpy`, where `x86` says which side of the `#if` is compiled. The other side is the
body of `nt_memcpy_tail_nt64`. -/
def ntMemcpy (x86 : Bool) (mem : Mem) (dst src len : Nat) : Option Mem :=
  if len = 0 then some mem
  else if x86 then do
    let c ← NtMemcpy.avx512 { mem, d := dst, s := src, len }
    some (ntMemcpyTailNt64 c.mem c.d c.s c.len)
  else some (ntMemcpyTailNt64 mem dst src len)

end BandleCxl.Source
