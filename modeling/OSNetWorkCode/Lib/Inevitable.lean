/-
# What every run comes to

`Inevitable A P s`: a run of `A` from `s` cannot avoid `P`.  Either `P` holds,
or some step is possible and after each that is, `P` is inevitable; the
definition is inductive, so that no run goes on for ever before it.  Nothing is
assumed about who is scheduled.

The rule (`Reachable.inevitable`) is the usual one: a rank that every step
makes smaller until `P` holds, and a step wherever it does not hold.
-/

import OSNetWorkCode.Lib.Transition
import Mathlib.Data.Nat.Notation

namespace OSNetWorkCode
namespace System

variable {σ : Type*} {A : System σ} {P : σ → Prop} {s : σ}

/-- Every run from `s` comes to a state where `P` holds. -/
inductive Inevitable (A : System σ) (P : σ → Prop) : σ → Prop
  | now {s : σ} (h : P s) : Inevitable A P s
  | next {s : σ} (hgo : ∃ s', A.step s s') (h : ∀ s', A.step s s' → Inevitable A P s') :
    Inevitable A P s

/-- **The rule of the rank.**  Where every step makes the rank smaller until
`P` holds, and there is a step wherever `P` does not hold, no run avoids `P`.
Both premises are asked of reachable states only, so that the invariants are at
hand. -/
theorem Reachable.inevitable (rank : σ → ℕ)
    (hrank : ∀ s s', A.Reachable s → A.step s s' → ¬P s → rank s' < rank s)
    (hgo : ∀ s, A.Reachable s → ¬P s → ∃ s', A.step s s') (hs : A.Reachable s) :
    A.Inevitable P s := by
  induction hn : rank s using Nat.strongRecOn generalizing s with
  | _ n ih =>
    by_cases h : P s
    · exact .now h
    · refine .next (hgo s hs h) fun s' hstep => ih (rank s') ?_ (hs.step hstep) rfl
      rw [← hn]
      exact hrank s s' hs hstep h

end System
end OSNetWorkCode
