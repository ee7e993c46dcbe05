import BandleCxl.Library.Transition

/-!
A FIFO queue of bounded length. Several items enter at a time, all or none, and several leave
at a time.
-/
namespace BandleCxl.Library

inductive QueueEvent (α : Type*) where
  | enqueue (items : List α)
  | dequeue (items : List α)

variable {α : Type*} [DecidableEq α]

def queueStep (capacity : Nat) (queue : List α) : QueueEvent α → Option (List α)
  | .enqueue items => if queue.length + items.length ≤ capacity then some (queue ++ items) else none
  | .dequeue items => if items <+: queue then some (queue.drop items.length) else none

def boundedQueue (α : Type*) [DecidableEq α] (capacity : Nat) :
    TransitionSystem (List α) (QueueEvent α) where
  init queue := queue = []
  step := queueStep capacity

variable {capacity : Nat} {queue items : List α}

theorem queueStep_enqueue (room : queue.length + items.length ≤ capacity) :
    queueStep capacity queue (.enqueue items) = some (queue ++ items) := if_pos room

/-- The first items leave. -/
theorem queueStep_dequeue (capacity : Nat) {count : Nat} (first : queue.take count = items)
    (inside : count ≤ queue.length) :
    queueStep capacity queue (.dequeue items) = some (queue.drop count) := by
  subst first
  rw [queueStep, if_pos (List.take_prefix count queue), List.length_take, Nat.min_eq_left inside]

end BandleCxl.Library
