import BandleCxl.Source.Replay
import BandleCxl.Source.TextInput

/-!
The preload of `main` (`src/main.cpp`): the first `preload_count` writes of a file go to the store
before the node starts.
-/
namespace BandleCxl.Source
open Library Bandle

/-- An open `std::ifstream`, or one that could not be opened. -/
def ifstream : Option Bytes → TextStream
  | some contents => { rest := contents }
  | none => { rest := [], failbit := true }

/-- The request made of a write. -/
def ParsedLineView.owned (v : ParsedLineView) : Request where
  op := v.op
  key := v.keyPtr.take v.keyLen
  value :=
    match v.valuePtr with
    | some value => if v.valueLen ≠ 0 then value.take v.valueLen else []
    | none => []

/-- What a line that was read shortens. -/
theorem TextStream.getline_rest {ss : TextStream} {str : Bytes} {delim : UInt8}
    (ok : (ss.getline str delim).2.failbit = false) :
    (ss.getline str delim).2.rest.length < ss.rest.length := by
  unfold getline at ok ⊢
  split
  · next bad =>
    rw [if_pos bad] at ok
    cases ok
  · next good =>
    rw [if_neg good] at ok
    cases found : ss.rest.idxOf? delim with
    | some n =>
      have inside := (List.idxOf?_eq_some_iff.mp found).1
      simp only [List.length_drop]
      omega
    | none =>
      rw [found] at ok
      have nonempty : ss.rest ≠ [] := by simpa using ok
      exact List.length_pos_of_ne_nil nonempty

/-- The loop; `line` is what the last `getline` left. -/
def preloadLoop (hash : Bytes → Nat) (preloadCount : Nat) (ss : TextStream) (line : Bytes)
    (loaded : Nat) (kv : KVStore) : KVStore × Nat :=
  if loaded < preloadCount then
    let next := ss.getline line 10
    if _ok : next.2.failbit = false then
      match parseLineView next.1 with
      | none => preloadLoop hash preloadCount next.2 next.1 loaded kv
      | some v =>
        if isWriteOp v.op then
          preloadLoop hash preloadCount next.2 next.1 (loaded + 1) (directApply hash kv v.owned)
        else preloadLoop hash preloadCount next.2 next.1 loaded kv
    else (kv, loaded)
  else (kv, loaded)
termination_by ss.rest.length
decreasing_by all_goals exact TextStream.getline_rest _ok

/-- The store after the preload and the number of writes loaded. -/
def preload (hash : Bytes → Nat) (preloadCount : Nat) (file : Option Bytes) (kv : KVStore) :
    KVStore × Nat :=
  if preloadCount > 0 then preloadLoop hash preloadCount (ifstream file) [] 0 kv else (kv, 0)

end BandleCxl.Source
