import BandleCxl.Source.Cluster

/-!
The replay loop of `main` (`src/main.cpp`): splitting the dataset into lines,
`parse_u64`, `parse_line_view`, and the cutting of the accepted lines into calls of
`submit_borrowed_batch`. The clock is an oracle that says, for each accepted line,
whether its time lies ahead. Sleeping and the progress output are left out.
-/
namespace BandleCxl.Source
open Library

/-- `ParsedLineView`; a pointer is the bytes of the line from there on. -/
structure ParsedLineView where
  tsUs : Nat
  op : UInt8
  keyPtr : Bytes
  keyLen : Nat
  valuePtr : Option Bytes
  valueLen : Nat
  deriving DecidableEq, Repr

/-- The digit loop; overflow wraps. -/
def parseU64Loop : Nat → Bytes → Option Nat
  | v, [] => some v
  | v, b :: rest =>
    if b < 48 ∨ b > 57 then none else parseU64Loop (add64 (mul64 v 10) (b - 48).toNat) rest

def parseU64 (text : Bytes) : Option Nat := if text.isEmpty then none else parseU64Loop 0 text

/-- The loop that drops line ends off the end. -/
def dropLineEnd (data : Bytes) : Bytes :=
  (data.reverse.dropWhile fun b => b == 10 || b == 13).reverse

/-- The text is `<digits>,<op> <key>[:<value>]`; the key is not empty, and the two
lengths are cast to 32 bits. -/
def parseLineView (data : Bytes) : Option ParsedLineView :=
  if data.isEmpty || data.head? == some 35 then none
  else
    let line := dropLineEnd data
    match line.idxOf? 44 with
    | none => none
    | some comma =>
      if comma + 3 > line.length then none
      else
        match parseU64 (line.take comma) with
        | none => none
        | some ts =>
          if line.getD (comma + 2) 0 ≠ 32 then none
          else
            let key := line.drop (comma + 3)
            let value := (key.idxOf? 58).map fun colon => key.drop (colon + 1)
            let colon := (key.idxOf? 58).getD key.length
            if colon = 0 then none
            else
              some {
                tsUs := ts
                op := line.getD (comma + 1) 0
                keyPtr := key
                keyLen := colon % 2 ^ 32
                valuePtr := value
                valueLen := (value.getD []).length % 2 ^ 32 }

/-- The request made of an accepted line. -/
def ParsedLineView.request (v : ParsedLineView) : BorrowedRequest where
  op := v.op
  keyPtr := some (Mem.ofBytes v.keyPtr)
  keyLen := v.keyLen
  valuePtr := v.valuePtr.map Mem.ofBytes
  valueLen := v.valueLen

/-- The stretches between newlines; after a final newline there is no further line. -/
def linesOf : Bytes → List Bytes
  | [] => []
  | b :: rest =>
    if b = 10 then [] :: linesOf rest
    else
      match linesOf rest with
      | [] => [[b]]
      | line :: lines => (b :: line) :: lines

/-- The dataset lines that `parse_line_view` accepts. -/
def acceptedLines (dataset : Bytes) : List ParsedLineView :=
  (linesOf dataset).filterMap parseLineView

structure ReplayState where
  batch : List BorrowedRequest := []
  submitted : Nat := 0
  /-- the calls of `submit_borrowed_batch` so far -/
  calls : List (List BorrowedRequest) := []

namespace ReplayState

def flush (st : ReplayState) : ReplayState :=
  if st.batch.isEmpty then st else { st with batch := [], calls := st.calls ++ [st.batch] }

/-- Add a request to the batch and submit the batch once it is full. -/
def push (batchSize : Nat) (st : ReplayState) (req : BorrowedRequest) : ReplayState :=
  let batch := st.batch ++ [req]
  if batch.length ≥ batchSize then
    { batch := [], submitted := st.submitted + 1, calls := st.calls ++ [batch] }
  else { st with batch := batch, submitted := st.submitted + 1 }

/-- The loop body. `ahead k ts` says whether `real_start + ts` was after the clock when
the `k`-th accepted line was reached. -/
def line (batchSize : Nat) (ahead : Nat → Nat → Bool) (st : ReplayState) (text : Bytes) :
    ReplayState :=
  match parseLineView text with
  | none => st
  | some v => push batchSize (if ahead st.submitted v.tsUs then st.flush else st) v.request

end ReplayState

/-- All calls of the replay loop, the last partial batch included. -/
def replay (batchSize : Nat) (ahead : Nat → Nat → Bool) (dataset : Bytes) :
    List (List BorrowedRequest) :=
  ((linesOf dataset).foldl (ReplayState.line batchSize ahead) {}).flush.calls

/-- What has been accepted: submitted or still in the batch. -/
def ReplayState.accepted (st : ReplayState) : List BorrowedRequest := st.calls.flatten ++ st.batch

theorem ReplayState.flush_accepted (st : ReplayState) : st.flush.accepted = st.accepted := by
  unfold ReplayState.flush ReplayState.accepted
  split
  · rfl
  · simp

theorem ReplayState.push_accepted (batchSize : Nat) (st : ReplayState) (req : BorrowedRequest) :
    (st.push batchSize req).accepted = st.accepted ++ [req] := by
  unfold ReplayState.push ReplayState.accepted
  dsimp only
  split <;> simp

theorem ReplayState.line_accepted (batchSize : Nat) (ahead : Nat → Nat → Bool) (st : ReplayState)
    (text : Bytes) :
    (st.line batchSize ahead text).accepted =
      st.accepted ++ (parseLineView text).toList.map ParsedLineView.request := by
  unfold ReplayState.line
  cases parseLineView text with
  | none => simp
  | some v =>
    dsimp only
    rw [ReplayState.push_accepted]
    split
    · rw [ReplayState.flush_accepted]
      rfl
    · rfl

/-- However the clock behaves and whatever the batch size, the calls together are the
accepted lines in order. -/
theorem replay_flatten (batchSize : Nat) (ahead : Nat → Nat → Bool) (dataset : Bytes) :
    (replay batchSize ahead dataset).flatten =
      (acceptedLines dataset).map ParsedLineView.request := by
  have folded : ∀ (lines : List Bytes) (st : ReplayState),
      (lines.foldl (ReplayState.line batchSize ahead) st).accepted =
        st.accepted ++ (lines.filterMap parseLineView).map ParsedLineView.request := by
    intro lines
    induction lines with
    | nil => intro st; simp
    | cons text rest ih =>
      intro st
      rw [List.foldl_cons, ih, ReplayState.line_accepted]
      cases parsed : parseLineView text with
      | none => simp [parsed]
      | some v => simp [parsed]
  have flushed : ∀ st : ReplayState, st.flush.calls.flatten = st.accepted := by
    intro st
    unfold ReplayState.flush ReplayState.accepted
    split
    · next empty => simp [List.isEmpty_iff.mp empty]
    · simp
  rw [replay, flushed, folded]
  rfl

/-- Three lines `1,G a`, `#` and `2,P a:b`; the second is a comment. -/
example : (replay 2 (fun _ _ => false)
    [49, 44, 71, 32, 97, 10, 35, 10, 50, 44, 80, 32, 97, 58, 98]).map (·.map (·.op)) =
      [[opG, opP]] := by
  decide

end BandleCxl.Source
