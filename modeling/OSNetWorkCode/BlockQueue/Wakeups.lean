/-
# Which wake-ups of `BlockQueue` are lost

`push` signals `__Empty` only when the queue is at least half full, while `pop`
waits for a single value.  So a value may lie in the queue with a consumer
asleep and nobody left to wake it (`consumer_sleeps_on`): a queue of the
default capacity 5, a `pop` that falls asleep, and a `push` that leaves one
value, less than `5 / 2`.

What the threshold does promise is `pop_wakeups`: once nobody is inside a call
except asleep, a `pop` sleeps only while the queue holds fewer than `max 1
(capacity / 2)` values.  Counted as work to do are the values in the queue; a
`pop` past its wait sees to one of them, and so does a `push` that has not yet
signalled.
-/

import Mathlib.Tactic.FinCases
import OSNetWorkCode.BlockQueue.Refinement
import OSNetWorkCode.Pthread.Schedule
import OSNetWorkCode.Pthread.Wakeups

namespace OSNetWorkCode
namespace BlockQueue

open Pthread

variable {T α κ : Type*} {next : κ → Option (Call α × κ)} {n : ℕ}

/-- Every unfinished call is asleep in `pthread_cond_wait`, no wake-up
pending. -/
def AllAsleep (s : State T α κ) : Prop :=
  ∀ t, (s.th t).Asleep ∨ ∃ k, s.th t = .run (.ready k)

/-- The threads that will take a value out of the queue, or signal somebody who
will. -/
def seesToValue : Pc α κ → ℕ
  | .pushHalf _ | .pushSignal _ | .popTest _ | .popFront _ => 1
  | _ => 0

/-- Values that `push` does not signal for. -/
def unsignalled (n : ℕ) : ℕ := max 1 (n / 2) - 1

variable [DecidableEq T]

/-- **Every value above the threshold is seen to.**  The values for which
`push` does not signal are the slack; from half full on each push signals
before it ends. -/
theorem pop_wakeups : Wakeups (prog next) (sys (T := T) next n).Reachable .empty
    (unsignalled n) (fun d => d.bq.length) seesToValue where
  signal {l k} h := by
    cases calls h
    exact le_rfl
  wake {l m k} h := by
    cases calls h
    exact le_rfl
  sleep {s t l m k} hs ht h := by
    cases calls h
    have hnil : s.data.bq = [] := found_of_run hs ht trivial
    simp [hnil]
  others {l c' m k} h hc := by cases calls h <;> rfl
  stay {l l'} hk hp := by
    generalize hop : prog (T := T) (S := Empty) next l = o at hk hp
    cases calls hop with
    | pushSignal => exact absurd rfl hp
    | pushTest | pushBack | pushHalf | popTest | popFront => exact hp.elim
    | _ => exact Nat.zero_le _
  act {s t l f i d l' ev} hs ht h hf := by
    have hcap : s.data.capacity = n := (sound hs).1
    cases access h hf with
    | full | room => exact .inl (Nat.add_le_add_left (Nat.zero_le _) _)
    | push =>
      left
      simp [seesToValue]
    | half | nonempty => exact .inl le_rfl
    | belowHalf hhalf =>
      rw [hcap] at hhalf
      right
      unfold unsignalled
      omega
    | empty hempty => simp [hempty]
    | front hbq =>
      left
      simp [hbq, seesToValue]

omit [DecidableEq T] in
/-- Nobody sees to anything once everybody is asleep or between two calls. -/
theorem tally_of_allAsleep [Fintype T] {s : State T α κ} (h : AllAsleep s) {w : Pc α κ → ℕ}
    (hw : ∀ k, w (.ready k) = 0) : s.tally (Status.awake w) = 0 := by
  refine St.tally_eq_zero fun t => ?_
  rcases h t with hasleep | ⟨k, hk⟩
  · cases hst : s.th t with
    | waiting c m k => rfl
    | _ =>
      rw [hst] at hasleep
      exact hasleep.elim
  · rw [hk]
    exact hw k

/-- Next to a `pop` asleep the queue is below the threshold: what is not seen
to is within the slack. -/
theorem queue_below_threshold [Fintype T] {s : State T α κ} (hs : (sys next n).Reachable s)
    (hasleep : AllAsleep s) (hpop : ∃ t, (s.th t).WaitsOn .empty) :
    s.data.bq.length < max 1 (n / 2) := by
  have hcovered : Covered .empty (unsignalled n) (fun d => d.bq.length) seesToValue s :=
    pop_wakeups.debt_le (fun _ hr => owned hr) (fun _ hr => hr)
      (fun s h u hu => by
        obtain ⟨k, hk⟩ := h.th u
        rw [hk] at hu
        exact hu) hs
  have hle : s.data.bq.length ≤ unsignalled n + s.tally (Status.awake seesToValue) :=
    hcovered hpop
  rw [tally_of_allAsleep hasleep fun _ => rfl] at hle
  unfold unsignalled at hle
  omega

/-- **A `pop` sleeps on only below the threshold.**  In no reachable state in
which every unfinished call is asleep is a `pop` waiting on `__Empty` while the
queue holds `max 1 (n / 2)` values or more. -/
theorem pop_waits_below_threshold [Fintype T] (next : κ → Option (Call α × κ)) (n : ℕ)
    {s : State T α κ} (hs : (sys next n).Reachable s) (hasleep : AllAsleep s)
    (hpop : ∃ t, (s.th t).WaitsOn .empty) : s.data.bq.length < max 1 (n / 2) :=
  queue_below_threshold hs hasleep hpop

/-- A queue of the default capacity, with one call to make for each of two
threads. -/
def oneEach : State (Fin 2) ℕ (List (Call ℕ)) where
  owner _ := none
  sem x := x.elim
  th t := .run (.ready (if t = caller then [.pop] else [.push 7]))
  data := ⟨[], 5⟩
  log := []

/-- The `pop` falls asleep, then the `push` runs to its end and does not
signal. -/
def popThenPush : List (Fin 2 × Choice (Fin 2) Unit) :=
  [(caller, .go), (caller, .input ()), (caller, .go),
    (worker, .go), (worker, .input ()), (worker, .input ()), (worker, .input ()), (worker, .go)]

/-- Where that leads: the `push` is over, the `pop` sleeps, and the queue holds
the value.  No wake-up is pending and no thread is left to signal. -/
theorem popThenPush_reaches : ∃ s : State (Fin 2) ℕ (List (Call ℕ)),
    (sys List.next? 5).Reachable s ∧ s.th 0 = .waiting .empty .mtx (.popTest []) ∧
      s.th 1 = .run (.ready []) ∧ s.data.bq = [7] := by
  have hinit : (sys List.next? 5).Reachable oneEach :=
    .init ⟨fun _ => rfl, fun t => ⟨_, rfl⟩, rfl, rfl⟩
  obtain ⟨s, hs, h⟩ : ∃ s, replay (prog List.next?) oneEach popThenPush = some s ∧
      s.th 0 = .waiting .empty .mtx (.popTest []) ∧ s.th 1 = .run (.ready []) ∧
      s.data.bq = [7] :=
    ⟨_, rfl, rfl, rfl, rfl⟩
  exact ⟨s, replay_reachable popThenPush hinit hs, h⟩

/-- **A `pop` can sleep on beside a value.**  Every call is over or asleep with
no wake-up pending, a `pop` is asleep, and the queue is not empty. -/
theorem consumer_sleeps_on : ∃ s : State (Fin 2) ℕ (List (Call ℕ)),
    (sys List.next? 5).Reachable s ∧ (∀ t, (s.th t).Asleep ∨ s.th t = .run (.ready [])) ∧
      (∃ t, (s.th t).WaitsOn .empty) ∧ s.data.bq ≠ [] := by
  obtain ⟨s, hs, h0, h1, hbq⟩ := popThenPush_reaches
  refine ⟨s, hs, fun t => ?_, ⟨0, by rw [h0]; rfl⟩, by simp [hbq]⟩
  fin_cases t
  · left
    show (s.th 0).Asleep
    rw [h0]
    trivial
  · exact .inr h1

/-- One value is fewer than half of five.  The state is the one in which a
`pop` sleeps on, so that the bound is all that the threshold promises. -/
theorem pop_waits_below_threshold_five : ∃ s : State (Fin 2) ℕ (List (Call ℕ)),
    (sys List.next? 5).Reachable s ∧ s.data.bq = [7] ∧ s.data.bq.length < max 1 (5 / 2) := by
  obtain ⟨s, hs, h0, h1, hbq⟩ := popThenPush_reaches
  have hasleep : AllAsleep s := fun t => by
    fin_cases t
    · left
      show (s.th 0).Asleep
      rw [h0]
      trivial
    · exact .inr ⟨[], h1⟩
  exact ⟨s, hs, hbq,
    pop_waits_below_threshold List.next? 5 hs hasleep ⟨0, by rw [h0]; rfl⟩⟩

end BlockQueue
end OSNetWorkCode
