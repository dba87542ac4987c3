/-
# The sale ends, though no thread returns

A seller that has sold a ticket goes back to the lock, so a thread may take any
number of steps; what pays for them is the ticket it has taken off (`ranked`).
It takes one off only if one is left, for the count it has tested cannot change
under the lock (`knows_of_reachable`).  So the threads come to a stand, whoever
is scheduled, and where they do the sellers are at the end of `getTickets`.

The first of them to come there flows off the end of a function that has a
value to return, so the program is defined only as far as that.  By then
everything is sold (`sale_ends`), whatever the others are still about to do.
-/

import OSNetWorkCode.Pthread.Rank
import OSNetWorkCode.Tickets.Sale

namespace OSNetWorkCode
namespace Tickets

open Pthread

variable {tickets n : ℕ} {s : State n}

/-- How many steps are left from a place on, where no ticket is. -/
def Pc.rank (n : ℕ) : Pc (Tid n) → ℕ
  | .create i => n + 1 + 6 * i
  | .join us => us.length
  | .lock => 5
  | .test => 4
  | .print => 3
  | .decrement => 2
  | .unlock => 6
  | .unlockBreak => 1
  | .bodyEnd => 0

/-- What a thread knows of the count before it takes one off: that there is one
to take. -/
def knows : Pc (Tid n) → Data → Prop
  | .decrement, d => 0 < d.tickets
  | _, _ => True

/-- **Every step brings the sale nearer to its end.**  A round of the loop
costs five steps, and the ticket that is taken off in it pays for them. -/
theorem ranked : Ranked (prog (S := Empty) (C := Empty) (tids n)) knows (Pc.rank n)
    (fun d => 5 * d.tickets.toNat) 0 where
  alone {l k} halone hk := by
    cases next_of_leads hk with
    | create | created | left | soldOut | print | decrement => exact halone.elim
    | join | lock | unlock | unlockBreak => simp [Pc.rank]
  wait {l c} := c.elim
  signal {l c} := c.elim
  create {l start k} h := by
    cases calls h
    simp only [Pc.rank]
    omega
  act {l f i d d' k ev} h hf hknows := by
    cases calls h with
    | created =>
      cases hf
      simp [Pc.rank, tids]
    | test =>
      cases hf
      split_ifs <;> simp [Pc.rank]
    | bodyEnd => cases hf
    | print =>
      cases hf
      simp [Pc.rank]
    | decrement =>
      cases hf
      -- `knows`: there was one to take off
      have hpos : 0 < d.tickets := hknows
      simp only [Pc.rank]
      omega

/-- **Who takes a ticket off has one to take.**  It has tested the count under
the lock, and printed it, and nobody else was inside since. -/
theorem knows_of_reachable (hs : (runs tickets n).Reachable s) (t : Tid n) (l : Pc (Tid n))
    (hl : s.th t = .run l) : knows l s.data := by
  cases l with
  | decrement =>
    obtain ⟨k, hk⟩ := (guarded hs).inside hl trivial
    have hcount := hk.count
    show 0 < s.data.tickets
    simp only at hcount
    omega
  | _ => trivial

/-- **Every run of the sale comes to the end of `getTickets`, and not before
everything is sold.**  For every number of tickets, every number of threads
from one on, and from every reachable state.  Whoever is scheduled, the run
cannot go on for ever and cannot stop before a thread stands at the end of
`getTickets`, from where no step is defined.  And as soon as one stands there
no ticket is left, and all numbers were printed, each once and in descending
order, whatever the other threads are at. -/
theorem sale_ends (hn : 1 ≤ n) (hs : (runs tickets n).Reachable s) :
    (runs tickets n).Inevitable (fun s => ∃ i, s.th (some i) = .run .bodyEnd) s ∧
      ∀ i, s.th (some i) = .run .bodyEnd →
        s.data.tickets = 0 ∧ s.events = numbers tickets := by
  refine ⟨?_, fun i hi => ?_⟩
  · refine ranked.inevitable_of_awake (fun _ c => c.elim) (fun s h t => ?_)
      (fun s => knows_of_reachable) (fun s hs hq => ⟨_, bodyEnd_of_quiescent hs hq ⟨0, hn⟩⟩) hs
    subst h
    cases t with
    | none => exact .inr ⟨_, rfl⟩
    | some i => exact .inl rfl
  · have hnone := soldOut_of_left hs hi
    exact ⟨le_antisymm hnone (fair hs).count, sold_of_soldOut hs hnone⟩

/-- Ten thousand tickets and five threads, as in the source. -/
theorem sale_ends_five : (runs 10000 5).Inevitable (fun s => ∃ i, s.th (some i) = .run .bodyEnd)
    (start 10000 5) :=
  (sale_ends (by decide) (.init rfl)).1

end Tickets
end OSNetWorkCode
