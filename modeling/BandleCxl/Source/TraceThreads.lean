import Mathlib.Data.Fintype.Card
import BandleCxl.Library.Transition
import BandleCxl.Source.CxlTraceDB

/-!
The threads of a YCSB run in the binding (`ycsb_binding/CxlTraceDB.java`). Each has an instance
of its own and calls `init`, then operations, then `cleanup`; the fields of the class are shared.
An action is one access to a shared field, or a lock taken or given back; `init` and `cleanup`,
which run under `INIT_LOCK`, are one action each. I/O that fails and the printed summary are left
out, and so are scans, which return at once. The output files are different files.
-/
namespace BandleCxl.Source
open Library

deriving instance DecidableEq for YcsbCall

/-- Value of an `AtomicLong` that starts at zero, after so many increments. -/
def atomicLong (increments : Nat) : Int := Int.bmod increments (2 ^ 64)

/-- What `init` reads from the properties. -/
structure TraceSetup extends Binding where
  nodes : Nat
  readToLeader : Bool
  multinodeWrite : Bool
  qpsPositive : Bool
  truncate : Bool
  /-- what `newLine()` writes -/
  lineSeparator : JChars
  nodes_range : 1 ≤ nodes ∧ nodes ≤ 4
  separator_cases : lineSeparator = [10] ∨ lineSeparator = [13, 10]

/-- A call and the value of `OP_COUNT` it drew. -/
structure TraceOp where
  call : YcsbCall
  opIndex : Int
  deriving DecidableEq

namespace TraceSetup

variable (b : TraceSetup)

def chooseReadNode (counter : Int) : Int :=
  if b.nodes ≤ 1 then 0
  else if b.readToLeader then counter.tmod b.nodes
  else 1 + counter.tmod (b.nodes - 1)

def chooseWriteNode (counter : Int) : Int :=
  if b.nodes ≤ 1 then 0 else if ¬b.multinodeWrite then 0 else counter.tmod b.nodes

/-- Whether the call counts as a write: every read among the first `preloadCount` calls does. -/
def isWrite (op : TraceOp) : Bool :=
  match op.call with
  | .read _ => decide (b.preloadCount > 0 ∧ op.opIndex < b.preloadCount)
  | _ => true

/-- The text handed to `appendLine`. A negative number is below a positive `preloadCount`, as
zero is. -/
def lineOf (op : TraceOp) : JChars := op.call.line b.toBinding op.opIndex.toNat

/-- The four writes of `appendLine`. -/
def pieces (op : TraceOp) (ts : Nat) : List JChars :=
  [(decimal ts).map (·.toUInt16), [44], b.lineOf op, b.lineSeparator]

end TraceSetup

/-- Where a thread stands. -/
inductive TracePc where
  /-- before `init` or after `cleanup` -/
  | outside
  | idle
  /-- `OP_COUNT` is counted -/
  | numbered (op : TraceOp)
  /-- `WRITE_COUNT` or `READ_COUNT` is counted -/
  | tallied (op : TraceOp)
  /-- the node is chosen -/
  | chosen (op : TraceOp) (node : Int)
  /-- inside `synchronized (lock)` of the writer -/
  | holding (op : TraceOp) (node : Nat)
  /-- inside `synchronized (TS_LOCK)` -/
  | drawing (op : TraceOp) (node : Nat)
  /-- the timestamp is drawn, `TS_LOCK` is still held -/
  | drawn (op : TraceOp) (node ts : Nat)
  /-- so many pieces of the line are written -/
  | writing (op : TraceOp) (node ts written : Nat)

/-- A file is what was written to it. The last three fields record what the files held and how
many calls had begun when they were opened, and what the calls returned since; nothing reads
them. -/
structure TraceState (T : Type*) where
  initialized : Bool
  instances : Nat
  opCount : Nat
  readCount : Nat
  writeCount : Nat
  lastEmitted : Nat
  tsLock : Option T
  writerLocks : Nat → Option T
  files : Nat → JChars
  pc : T → TracePc
  opened : Nat → JChars
  firstOp : Nat
  /-- `true` for `Status.OK`, `false` for `Status.ERROR` -/
  returned : List (TraceOp × Bool)

inductive TraceAction (T : Type*) where
  | init (t : T)
  | cleanup (t : T)
  | begin (t : T) (call : YcsbCall)
  | advance (t : T)
  /-- `floored` is `(long) Math.floor(timestampAccUs)` after the addition -/
  | draw (t : T) (floored : Nat)

namespace TraceState

variable {T : Type*} [DecidableEq T] (b : TraceSetup)

def setPc (s : TraceState T) (t : T) (pc : TracePc) : TraceState T :=
  { s with pc := Function.update s.pc t pc }

/-- A new instance; the first one opens the files. -/
def initStep (s : TraceState T) (t : T) : Option (TraceState T) :=
  match s.pc t with
  | .outside =>
    let s := { s with instances := s.instances + 1 }
    if s.initialized then some (s.setPc t .idle)
    else if s.tsLock.isSome then none
    else
      let kept := fun node => if node < b.nodes ∧ b.truncate = true then [] else s.files node
      some ({ s with
        initialized := true
        lastEmitted := 0
        writerLocks := fun _ => none
        files := kept
        opened := kept
        firstOp := s.opCount
        returned := [] }.setPc t .idle)
  | _ => none

/-- The last instance closes the files. -/
def cleanupStep (s : TraceState T) (t : T) : Option (TraceState T) :=
  match s.pc t with
  | .idle =>
    let left := s.instances - 1
    some ({ s with
      instances := left
      initialized := if left = 0 then false else s.initialized }.setPc t .outside)
  | _ => none

def beginStep (s : TraceState T) (t : T) (call : YcsbCall) : Option (TraceState T) :=
  match s.pc t with
  | .idle =>
    some ({ s with opCount := s.opCount + 1 }.setPc t (.numbered ⟨call, atomicLong s.opCount⟩))
  | _ => none

/-- What a thread does next, the drawing of a timestamp apart; `none` while it waits for a lock. -/
def advanceStep (s : TraceState T) (t : T) : Option (TraceState T) :=
  match s.pc t with
  | .numbered op =>
    if b.isWrite op then some ({ s with writeCount := s.writeCount + 1 }.setPc t (.tallied op))
    else some ({ s with readCount := s.readCount + 1 }.setPc t (.tallied op))
  | .tallied op =>
    let node :=
      if b.isWrite op then b.chooseWriteNode (atomicLong s.writeCount)
      else b.chooseReadNode (atomicLong s.readCount)
    some (s.setPc t (.chosen op node))
  | .chosen op node =>
    if node < 0 ∨ node ≥ b.nodes then
      some ({ s with returned := s.returned ++ [(op, false)] }.setPc t .idle)
    else if (s.writerLocks node.toNat).isSome then none
    else
      some ({ s with writerLocks := Function.update s.writerLocks node.toNat (some t) }.setPc t
        (.holding op node.toNat))
  | .holding op node =>
    if s.tsLock.isSome then none
    else some ({ s with tsLock := some t }.setPc t (.drawing op node))
  | .drawn op node ts => some ({ s with tsLock := none }.setPc t (.writing op node ts 0))
  | .writing op node ts written =>
    match (b.pieces op ts)[written]? with
    | some piece =>
      some ({ s with files := Function.update s.files node (s.files node ++ piece) }.setPc t
        (.writing op node ts (written + 1)))
    | none =>
      some ({ s with
        writerLocks := Function.update s.writerLocks node none
        returned := s.returned ++ [(op, true)] }.setPc t .idle)
  | _ => none

/-- `nextTimestampUs`; the cast to `long` saturates below `2 ^ 63`. -/
def drawStep (s : TraceState T) (t : T) (floored : Nat) : Option (TraceState T) :=
  match s.pc t with
  | .drawing op node =>
    if floored < 2 ^ 63 then
      let ts := nextTimestampUs b.qpsPositive floored s.lastEmitted
      some ({ s with lastEmitted := ts.2 }.setPc t (.drawn op node ts.1))
    else none
  | _ => none

def step (s : TraceState T) : TraceAction T → Option (TraceState T)
  | .init t => s.initStep b t
  | .cleanup t => s.cleanupStep t
  | .begin t call => s.beginStep t call
  | .advance t => s.advanceStep b t
  | .draw t floored => s.drawStep b t floored

end TraceState

/-- Any number of threads, none of which has called `init`, and files with any content. -/
def traceThreads (T : Type*) [DecidableEq T] (b : TraceSetup) :
    TransitionSystem (TraceState T) (TraceAction T) where
  init s :=
    s.initialized = false ∧ s.instances = 0 ∧ s.opCount = 0 ∧ s.readCount = 0 ∧
      s.writeCount = 0 ∧ s.lastEmitted = 0 ∧ s.tsLock = none ∧ (∀ node, s.writerLocks node = none) ∧
      (∀ t, s.pc t = .outside) ∧ s.opened = s.files ∧ s.firstOp = 0 ∧ s.returned = []
  step := TraceState.step b

end BandleCxl.Source
