/-
# Transition systems, invariants and refinement

A program whose steps interleave is a set of start states and a step relation.
Everything said about "every reachable state" goes through `System.Reachable`,
and every such statement is proved by one of two rules.

* `Reachable.invariant`: a property of the start states which every step from a
  reachable state keeps holds in every reachable state.
* `Refines.reachable`: where each step of the system is, under an abstraction,
  either no step or one step of an abstract system, the abstraction of a
  reachable state is reachable there.

Where the steps are given by a function of state and action, a guard on the actions
selects some of the runs (`along`); it selects all of them if it admits whatever is
possible (`Reachable.admitted`).
-/

import Mathlib.Tactic.TypeStar

namespace OSNetWorkCode

/-- A transition system: where a run may start and what one step may do. -/
structure System (σ : Type*) where
  init : σ → Prop
  step : σ → σ → Prop

namespace System

variable {σ τ α : Type*}

/-- The states that a finite run reaches. -/
inductive Reachable (A : System σ) : σ → Prop
  | init {s : σ} (h : A.init s) : Reachable A s
  | step {s s' : σ} (hs : Reachable A s) (h : A.step s s') : Reachable A s'

/-- **The invariant rule.**  What holds at the start and is kept by every step
holds in every reachable state.  The step case may use that the state left is
itself reachable, so that invariants proved before are at hand. -/
theorem Reachable.invariant {A : System σ} {I : σ → Prop} (hinit : ∀ s, A.init s → I s)
    (hstep : ∀ s s', A.Reachable s → I s → A.step s s' → I s') {s : σ} (h : A.Reachable s) :
    I s := by
  induction h with
  | init h => exact hinit _ h
  | step hs h ih => exact hstep _ _ hs ih h

/-- `abs` maps every step of `A` to a step of `B` or to none. -/
structure Refines (A : System σ) (B : System τ) (abs : σ → τ) : Prop where
  init : ∀ s, A.init s → B.init (abs s)
  step : ∀ s s', A.Reachable s → A.step s s' → abs s' = abs s ∨ B.step (abs s) (abs s')

/-- **Refinement carries reachability.**  What is proved of all reachable
states of the abstract system is thereby proved of the abstraction of every
reachable state of the other. -/
theorem Refines.reachable {A : System σ} {B : System τ} {abs : σ → τ} (h : A.Refines B abs)
    {s : σ} (hs : A.Reachable s) : B.Reachable (abs s) := by
  induction hs with
  | init h0 => exact .init (h.init _ h0)
  | step hs hstep ih =>
    rcases h.step _ _ hs hstep with heq | hB
    · rw [heq]
      exact ih
    · exact .step ih hB

/-! ### Runs of a step function -/

/-- Every action is admitted. -/
def anything : σ → α → Bool := fun _ _ => true

/-- The runs of a step function along the actions that `ok` admits. -/
def along (init : σ → Prop) (step : σ → α → Option σ) (ok : σ → α → Bool) : System σ where
  init := init
  step s s' := ∃ a, ok s a = true ∧ step s a = some s'

variable {init : σ → Prop} {step : σ → α → Option σ} {ok : σ → α → Bool} {s s' : σ} {a : α}

/-- A run goes on with any action that is possible: the state after the action
is reachable too.  Witnesses reach their states by this rule, action by
action. -/
theorem Reachable.next (hs : (along init step anything).Reachable s) (h : step s a = some s') :
    (along init step anything).Reachable s' :=
  .step hs ⟨a, rfl, h⟩

/-- A restricted run is a run, so that every invariant of all runs holds in it
as well. -/
theorem Reachable.free (hs : (along init step ok).Reachable s) :
    (along init step anything).Reachable s := by
  induction hs with
  | init h => exact .init h
  | step hs hstep ih =>
    obtain ⟨a, -, h⟩ := hstep
    exact ih.next h

/-- **A run is a restricted run** where every action that is possible is
admitted.  What is proved of the restricted runs then holds of all of them. -/
theorem Reachable.admitted
    (hok : ∀ s a s', (along init step ok).Reachable s → step s a = some s' → ok s a = true)
    (hs : (along init step anything).Reachable s) : (along init step ok).Reachable s := by
  induction hs with
  | init h => exact .init h
  | step hs hstep ih =>
    obtain ⟨a, -, h⟩ := hstep
    exact .step ih ⟨a, hok _ a _ ih h, h⟩

end System
end OSNetWorkCode
