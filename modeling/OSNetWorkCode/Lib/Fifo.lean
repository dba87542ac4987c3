/-
# A bounded first-in first-out queue

The purpose of a queue, apart from how it is kept: a value enters at the back
while there is room, the value at the front leaves.  The state remembers
everything that ever entered and left, so that "nothing is lost, repeated or
reordered" is the equation `entered = left ++ content` (`Fifo.history`), and
the bound is `Fifo.length_le`.  `room k` says whether a queue of `k` values
takes one more.
-/

import Mathlib.Data.Nat.Notation
import OSNetWorkCode.Lib.Transition

namespace OSNetWorkCode

/-- A queue with its history. -/
structure Fifo (α : Type*) where
  entered : List α
  left : List α
  content : List α

namespace Fifo

variable {α : Type*}

/-- A value enters at the back, or the value at the front leaves. -/
inductive Step (room : ℕ → Prop) : Fifo α → Fifo α → Prop
  | enter {e l c} (v : α) (h : room c.length) : Step room ⟨e, l, c⟩ ⟨e ++ [v], l, c ++ [v]⟩
  | leave {e l c} (v : α) : Step room ⟨e, l, v :: c⟩ ⟨e, l ++ [v], c⟩

/-- The queue, empty at first. -/
def queue (α : Type*) (room : ℕ → Prop) : System (Fifo α) where
  init q := q = ⟨[], [], []⟩
  step := Step room

/-- **Nothing is lost, repeated or reordered.**  What entered is what left
followed by what is there, so that what left is a beginning of what entered at
any time. -/
theorem history {room : ℕ → Prop} {q : Fifo α} (h : (queue α room).Reachable q) :
    q.entered = q.left ++ q.content := by
  refine h.invariant (I := fun q => q.entered = q.left ++ q.content) ?_ ?_
  · rintro _ rfl
    rfl
  · rintro _ _ - hq hstep
    cases hstep with
    | enter v h =>
      dsimp only at hq ⊢
      rw [hq, List.append_assoc]
    | leave v => simpa using hq

/-- **The queue holds at most `n` values** where only a queue of fewer takes
one more.  The bound is on every reachable state and needs nothing of who takes
values out, or when. -/
theorem length_le {room : ℕ → Prop} {n : ℕ} (hroom : ∀ k, room k → k < n) {q : Fifo α}
    (h : (queue α room).Reachable q) : q.content.length ≤ n := by
  refine h.invariant (I := fun q => q.content.length ≤ n) ?_ ?_
  · rintro _ rfl
    simp
  · rintro _ _ - hq hstep
    cases hstep with
    | enter v h =>
      have := hroom _ h
      simp only [List.length_append, List.length_singleton]
      omega
    | leave v =>
      simp only [List.length_cons] at hq ⊢
      omega

end Fifo
end OSNetWorkCode
