/-
# `BlockQueue` is a bounded FIFO queue

Everything is under one mutex, so one monitor says it all: outside the critical
section the queue holds what was pushed and not popped, at most `n` values;
inside it, a `push` past its test finds fewer than `n` values and a `pop` past
its test finds one (`monitor`).  The test is repeated after every wake-up, so
it does not matter who took the mutex between the signal and the return from
`pthread_cond_wait`.

`__isQueueFull` tests for equality with the capacity, which is as good as `≥`
as long as the queue is never longer: that is part of the invariant.
-/

import OSNetWorkCode.BlockQueue.Model
import OSNetWorkCode.Lib.Fifo
import OSNetWorkCode.Pthread.Monitor

namespace OSNetWorkCode
namespace BlockQueue

open Pthread

variable {T S α κ : Type*} {next : κ → Option (Call α × κ)}

/-- The places between lock and unlock. -/
def holds : Pc α κ → Mutex → Prop
  | .ready _, _ => False
  | _, _ => True

/-- The accesses, by the place they are made at: what they leave, where they go
on and what they record. -/
inductive Access (d : Data α) : Pc α κ → Data α → Pc α κ → List (Event α) → Prop
  | full {v k} (hfull : d.bq.length = d.capacity) : Access d (.pushTest v k) d (.pushWait v k) []
  | room {v k} (hroom : d.bq.length ≠ d.capacity) : Access d (.pushTest v k) d (.pushBack v k) []
  | push {v k} :
      Access d (.pushBack v k) { d with bq := d.bq ++ [v] } (.pushHalf k) [.pushed v]
  | half {k} (hhalf : d.capacity / 2 ≤ d.bq.length) :
      Access d (.pushHalf k) d (.pushSignal k) []
  | belowHalf {k} (hhalf : d.bq.length < d.capacity / 2) :
      Access d (.pushHalf k) d (.unlock k) []
  | empty {k} (hempty : d.bq = []) : Access d (.popTest k) d (.popWait k) []
  | nonempty {k} (hne : d.bq ≠ []) : Access d (.popTest k) d (.popFront k) []
  | front {k v rest} (hbq : d.bq = v :: rest) :
      Access d (.popFront k) { d with bq := rest } (.popSignal k) [.popped v]

/-- **Every access is one of these.**  Which way a test goes is in the rule,
with what it has found, and so are the value moved and the event left. -/
theorem access {l l' : Pc α κ} {f i} {d d' : Data α} {ev}
    (h : prog (T := T) (S := S) next l = .act f) (hf : f i d = some (.next d' l' ev)) :
    Access d l d' l' ev := by
  cases calls h with
  | pushTest =>
    obtain ⟨rfl, rfl, rfl⟩ := Outcome.next.inj (Option.some.inj hf)
    split_ifs with hb
    · exact .full (by simpa [Data.isQueueFull] using hb)
    · exact .room (by simpa [Data.isQueueFull] using hb)
  | pushBack =>
    obtain ⟨rfl, rfl, rfl⟩ := Outcome.next.inj (Option.some.inj hf)
    exact .push
  | pushHalf =>
    obtain ⟨rfl, rfl, rfl⟩ := Outcome.next.inj (Option.some.inj hf)
    split_ifs with hb
    · exact .half (by simpa using hb)
    · exact .belowHalf (by simpa using hb)
  | popTest =>
    obtain ⟨rfl, rfl, rfl⟩ := Outcome.next.inj (Option.some.inj hf)
    split_ifs with hb
    · exact .empty (by simpa [Data.isQueueEmpty] using hb)
    · exact .nonempty (by simpa [Data.isQueueEmpty] using hb)
  | popFront =>
    unfold front at hf
    split at hf
    · rename_i v rest hbq
      obtain ⟨rfl, rfl, rfl⟩ := Outcome.next.inj (Option.some.inj hf)
      exact .front hbq
    · cases hf

/-- Only `front()` of an empty queue is undefined; the tests and the push can
always be made. -/
theorem front_undefined {l : Pc α κ} {i} {d : Data α} (h : front l i d = some .undefined) :
    d.bq = [] := by
  unfold front at h
  split at h
  · cases h
  · assumption

/-- **`push` and `pop` agree with the annotation:** the guard locks at the
beginning, the waits give the mutex back and take it again, and the guard
unlocks at the end. -/
theorem locks : Locks (prog (T := T) (S := S) next) holds where
  lock {l m k} h := by cases calls h <;> exact id
  unlock {l m k} h := by
    cases calls h
    trivial
  condWait {l c m k} h := by cases calls h <;> trivial
  create {l start k} h := by cases calls h
  leads {l l'} hk m := by
    generalize hop : prog (T := T) (S := S) next l = o at hk ⊢
    cases m
    cases calls hop with
    | done h => exact hk.elim
    | pushTest | pushBack | pushHalf | popTest | popFront =>
      obtain ⟨i, d, d', ev, hf⟩ := hk
      cases access hop hf <;> exact Iff.rfl
    | _ =>
      cases hk
      simp [holds, Op.held]

/-- What the queue is at any time: at most `n` values, those pushed and not
popped. -/
def Sound (n : ℕ) (d : Data α) (ev : List (Event α)) : Prop :=
  d.capacity = n ∧ d.bq.length ≤ n ∧ pushed ev = popped ev ++ d.bq

/-- What a thread has found out at each place. -/
def found : Pc α κ → Data α → Prop
  | .pushWait .., d => d.bq.length = d.capacity
  | .pushBack .., d => d.bq.length < d.capacity
  | .popWait _, d => d.bq = []
  | .popFront _, d => d.bq ≠ []
  | _, _ => True

/-- Every access is made inside the critical section, so that no two of them
are made at the same time. -/
theorem holds_of_act {l : Pc α κ} {f} (h : prog (T := T) (S := S) next l = .act f) (m : Mutex) :
    holds l m := by
  cases calls h <;> trivial

/-- **`__mtx` guards the queue.**  Outside the section it holds at most `n`
values, those pushed and not popped; inside, what a thread has found out by its
test is so until it acts on it. -/
theorem monitor (n : ℕ) : Monitor (prog (T := T) (S := S) next) holds .mtx (Sound n)
    (fun l d ev => Sound n d ev ∧ found l d) where
  acquire {l k d ev} h hf := by cases calls h <;> exact ⟨hf, trivial⟩
  release {l k d ev} h hi := hi.1
  sleep {l c k d ev} h hi := hi.1
  wake {l c k d ev} h hf := by cases calls h <;> exact ⟨hf, trivial⟩
  nested {l c m k} h hl := by
    cases m
    rfl
  stay {l l' d ev} hl hk hn hi := by
    generalize hop : prog (T := T) (S := S) next l = o at hk hn
    cases calls hop with
    | pushSignal | popSignal =>
      cases hk
      exact ⟨hi.1, trivial⟩
    | callPush h | callPop h | done h => exact hl.elim
    | pushWait | popWait | unlock => exact absurd rfl hn
    | _ => exact absurd trivial hn
  act {l f i d d' k e ev} h hl hf hi := by
    obtain ⟨⟨hcap, hle, hq⟩, hfound⟩ := hi
    cases access h hf with
    | full hfull => exact ⟨⟨hcap, hle, by simpa using hq⟩, hfull⟩
    | room hroom =>
      refine ⟨⟨hcap, hle, by simpa using hq⟩, ?_⟩
      show d.bq.length < d.capacity
      omega
    | push =>
      have hlt : d.bq.length < d.capacity := hfound
      refine ⟨⟨hcap, ?_, ?_⟩, trivial⟩
      · simp only [List.length_append, List.length_singleton]
        omega
      · simp [hq]
    | half | belowHalf => exact ⟨⟨hcap, hle, by simpa using hq⟩, trivial⟩
    | empty hempty => exact ⟨⟨hcap, hle, by simpa using hq⟩, hempty⟩
    | nonempty hne => exact ⟨⟨hcap, hle, by simpa using hq⟩, hne⟩
    | front hbq =>
      rw [hbq] at hle hq
      exact ⟨⟨hcap, Nat.le_of_succ_le hle, by simp [hq]⟩, trivial⟩
  others_free {l f i d d' k e ev} h hl hf hi := absurd (holds_of_act h _) hl
  others_inside {l f i d d' k e ev l'} h hl hf hl' hi := absurd (holds_of_act h _) hl

/-- At first nobody owns the mutex, and nobody is inside. -/
theorem owned_of_init {n : ℕ} {s : State T α κ} (h : Init n s) : Owned (prog next) holds s where
  owner m t := by
    obtain ⟨k, ht⟩ := h.th t
    simp [h.owner, ht, Status.Holds, holds]
  entered t := by
    obtain ⟨k, ht⟩ := h.th t
    rw [ht]
    trivial

/-- The queue and its history, as the purpose of the class has it. -/
def view (s : State T α κ) : Fifo α :=
  ⟨pushed s.events, popped s.events, s.data.bq⟩

section reachable

variable [DecidableEq T] {n : ℕ} {s : State T α κ}

/-- In every reachable state the owner of `__mtx` is the thread that stands
between lock and unlock. -/
theorem owned (hs : (sys next n).Reachable s) : Owned (prog next) holds s :=
  locks.owned (fun _ h => owned_of_init h) hs

/-- **The invariant of the monitor, in every reachable state.**  With the mutex
free the data are `Sound`; the thread inside knows in addition what it has
found. -/
theorem guarded (hs : (sys next n).Reachable s) :
    Guarded holds .mtx (Sound n) (fun l d ev => Sound n d ev ∧ found l d) s := by
  refine (monitor n).inv locks (fun _ h => owned_of_init h) (fun s h => ?_) hs
  refine ⟨fun _ => ?_, fun {t l} ht hl => ?_⟩
  · simp [Sound, h.data, St.events, h.log]
  · obtain ⟨k, ht'⟩ := h.th t
    rw [ht'] at ht
    cases ht
    exact hl.elim

/-- A thread that has found something out and holds the mutex finds it so.  In
particular a `pop` at `front()` has a value there, and a `push` has room. -/
theorem found_of_run (hs : (sys next n).Reachable s) {t : T} {l : Pc α κ}
    (ht : s.th t = .run l) (hl : holds l .mtx) : found l s.data :=
  ((guarded hs).inside ht hl).2

/-- The queue is sound whoever owns the mutex: a step changes it only at `push`
and `pop`, which are made inside. -/
theorem sound (hs : (sys next n).Reachable s) : Sound n s.data s.events := by
  refine data_invariant (R := (sys next n).Reachable) (fun _ h => h) (fun s h => ?_) ?_ hs
  · simp [Sound, h.data, St.events, h.log]
  · rintro s t l f i d l' e hr ht hf hnext hsound
    have hl := holds_of_act hf .mtx
    exact ((monitor n).act hf hl hnext ((guarded hr).inside ht hl)).1

/-- **Nothing is undefined:** `front` is never applied to an empty queue.  This
is where the loops around the waits are needed, for a woken `pop` may find its
value taken. -/
theorem not_faulty (hs : (sys next n).Reachable s) : ¬ Faulty (prog next) s := by
  rintro ⟨t, l, f, i, ht, hf, hu⟩
  cases calls hf with
  | popFront =>
    have hne : s.data.bq ≠ [] := found_of_run hs ht trivial
    exact hne (front_undefined hu)
  | _ => cases hu

/-- **A step of `BlockQueue` is a step of the bounded queue or none.**  The
push and the pop of the inner queue are its two steps, and taking mutexes,
testing, sleeping and signalling are none. -/
theorem refines (n : ℕ) :
    (sys (T := T) next n).Refines (Fifo.queue α (· < n)) view where
  init s h := by simp [Fifo.queue, view, h.data, St.events, h.log]
  step s s' hs hstep := by
    obtain ⟨t, hst | hw⟩ := hstep
    · rcases hst.data_cases with ⟨hd, hl⟩ | ⟨l, f, i, d, l', e, ht, hf, hnext, rfl⟩
      · left
        simp [view, St.events, hd, hl]
      · cases access hf hnext with
        | @push v k =>
          have hroom : s.data.bq.length < s.data.capacity := found_of_run hs ht trivial
          rw [(sound hs).1] at hroom
          right
          simpa [view, Fifo.queue] using (Fifo.Step.enter v hroom : Fifo.Step (· < n) _ _)
        | @front k v rest hbq =>
          right
          simpa [view, Fifo.queue, hbq] using (Fifo.Step.leave v : Fifo.Step (· < n) _ _)
        | _ =>
          left
          simp [view]
    · obtain ⟨-⟩ := hw
      exact .inl rfl

/-- **`BlockQueue` is a bounded FIFO queue.**  For every capacity and any
threads making any calls in any interleaving, its steps are those of a queue of
at most `n` values; in every reachable state the values pushed are those popped
followed by those in the queue, at most `n`; `front` is never applied to an
empty queue, and a `push` enqueues only into a queue of fewer than `__capacity`
values. -/
theorem bounded_fifo (next : κ → Option (Call α × κ)) (n : ℕ) :
    (sys (T := T) next n).Refines (Fifo.queue α (· < n)) view ∧
      ∀ s : State T α κ, (sys next n).Reachable s →
        s.data.capacity = n ∧ s.data.bq.length ≤ n ∧
        pushed s.events = popped s.events ++ s.data.bq ∧
        ¬ Faulty (prog next) s ∧
        (∀ t k, s.th t = .run (.popFront k) → s.data.bq ≠ []) ∧
        (∀ t v k, s.th t = .run (.pushBack v k) → s.data.bq.length < s.data.capacity) := by
  refine ⟨refines n, fun s hs => ?_⟩
  have hview : (Fifo.queue α (· < n)).Reachable (view s) := (refines n).reachable hs
  exact ⟨(sound hs).1, Fifo.length_le (fun _ hroom => hroom) hview, Fifo.history hview,
    not_faulty hs, fun _ _ ht => found_of_run hs ht trivial,
    fun _ _ _ ht => found_of_run hs ht trivial⟩

end reachable

end BlockQueue
end OSNetWorkCode
