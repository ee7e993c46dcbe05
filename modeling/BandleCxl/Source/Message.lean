import BandleCxl.Library.Memory

/-!
Message and slot types of `include/message_queue.h` and the request types of
`include/bandle.h`. A fixed-size C buffer is a byte memory of which only the
first `kMaxValueBytes` offsets are ever addressed; a borrowed pointer is the
memory it points to, or nothing for `nullptr`.
-/
namespace BandleCxl.Source
open Library

def kBandleRingCapacity : Nat := 32768
def kMaxValueBytes : Nat := 1088
def kCompletionSlots : Nat := 65536

/-- Unsigned 64-bit arithmetic on values below `2 ^ 64`. -/
def add64 (a b : Nat) : Nat := (a + b) % 2 ^ 64

def sub64 (a b : Nat) : Nat := (a + 2 ^ 64 - b) % 2 ^ 64

def mul64 (a b : Nat) : Nat := a * b % 2 ^ 64

/-- The value of a signed 32-bit `int`. -/
def int32 (x : Int) : Int := Int.bmod x (2 ^ 32)

/-- Values of the C `char` that names an operation; any other byte may occur. -/
def opG : UInt8 := 71
def opP : UInt8 := 80
def opU : UInt8 := 85
def opD : UInt8 := 68
def opN : UInt8 := 78

def isWriteOp (op : UInt8) : Bool := op == opP || op == opU || op == opD

inductive BandleMsgType where
  | proposal | p1 | p2 | decide
  deriving DecidableEq, Repr

structure BandlePayload where
  seq : Nat := 0
  round : Nat := 1
  sender : Nat := 0
  proposer : Nat := 0
  clientReqId : Nat := 0
  startTsc : Nat := 0
  value : Nat := 1
  promise : Nat := 0
  op : UInt8 := opN
  keyLen : Nat := 0
  valueLen : Nat := 0
  data : Mem := fun _ => 0

structure BandleDescriptor where
  slotSeq : Nat := 0
  type : BandleMsgType := .proposal
  seq : Nat := 0
  round : Nat := 1
  sender : Nat := 0
  proposer : Nat := 0
  clientReqId : Nat := 0
  startTsc : Nat := 0
  value : Nat := 1
  promise : Nat := 0
  op : UInt8 := opN
  keyLen : Nat := 0
  valueLen : Nat := 0
  deriving DecidableEq, Repr

structure BandleMessage where
  slotSeq : Nat := 0
  type : BandleMsgType := .proposal
  body : BandlePayload

/-- The key and value ranges of the payload buffer. -/
def BandlePayload.key (b : BandlePayload) : Bytes := b.data.load 0 b.keyLen
def BandlePayload.val (b : BandlePayload) : Bytes := b.data.load b.keyLen b.valueLen

/-- `Bandle::Request`, the owning form used by the preload path. -/
structure Request where
  op : UInt8 := opG
  key : Bytes := []
  value : Bytes := []
  deriving DecidableEq, Repr

/-- `Bandle::BorrowedRequest`; the two lengths are `uint32_t` in the source. -/
structure BorrowedRequest where
  op : UInt8 := opG
  keyPtr : Option Mem := none
  keyLen : Nat := 0
  valuePtr : Option Mem := none
  valueLen : Nat := 0

/-- A request that borrows the given bytes. -/
def BorrowedRequest.ofBytes (op : UInt8) (key value : Bytes) : BorrowedRequest where
  op := op
  keyPtr := some (Mem.ofBytes key)
  keyLen := key.length
  valuePtr := some (Mem.ofBytes value)
  valueLen := value.length

end BandleCxl.Source
