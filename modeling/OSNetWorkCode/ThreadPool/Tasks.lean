/-
# `ThreadPool` executes every task once, in push order

`__lock` guards the queue (`monitor`): whenever it is free the tasks pushed are
the tasks dequeued followed by those in the queue, and a worker past its test
finds the queue not empty, however often it was woken for nothing and whoever
took the lock first.  What a worker has dequeued it has called, but for the one
task it may be holding (`traced`): that needs no lock, since a worker's `task`
is its own.

A worker calls its `task` only after `getTask`, so never a default-constructed
one (`task_of_place`).
-/

import OSNetWorkCode.Pthread.Ledger
import OSNetWorkCode.Pthread.Monitor
import OSNetWorkCode.Pthread.Schedule
import OSNetWorkCode.Pthread.Trace
import OSNetWorkCode.ThreadPool.Model

namespace OSNetWorkCode
namespace ThreadPool

open Pthread

variable {T S τ U X I V : Type*} {user : User τ U X I V}

/-- The places between lock and unlock. -/
def holds : Pc τ U → Mutex → Prop
  | .pushPush .., _ | .pushSignal .., _ | .pushUnlock .., _ | .routineTest _, _
  | .routineWait _, _ | .routineGet _, _ | .routineUnlock _, _ => True
  | _, _ => False

/-- The places in the code around the pool, the loop of `run()`, and the head
of `routine`. -/
def Pc.Around : Pc τ U → Prop
  | .user .. | .run .. => True
  | .routineLock task => task = none
  | _ => False

/-- Outside the pool nobody owns its lock. -/
theorem not_holds_of_around {l : Pc τ U} (h : l.Around) (m : Mutex) : ¬ holds l m := by
  cases l with
  | user worker u => exact id
  | run worker i u => exact id
  | routineLock task => exact id
  | _ => exact h.elim

/-- **What an access does.**  The code around the pool leaves the queue alone
and records no event of the pool; inside the pool there are four accesses. -/
theorem act_cases {l k : Pc τ U} {f i} {d d' : Data τ X} {ev}
    (h : prog (T := T) (S := S) user l = .act f) (hf : f i d = some (.next d' k ev)) :
    (l.Around ∧ k.Around ∧ d'.taskQueue = d.taskQueue ∧ pushed ev = [] ∧ dequeued ev = [] ∧
      called ev = []) ∨
    (∃ task worker u, l = .pushPush task worker u ∧ k = .pushSignal worker u ∧
      d' = { d with taskQueue := d.taskQueue ++ [task] } ∧ ev = [.pushed task]) ∨
    (∃ task, l = .routineTest task ∧ d' = d ∧ ev = [] ∧
      k = if d.isEmpty then .routineWait task else .routineGet task) ∨
    (∃ task t rest, l = .routineGet task ∧ d.taskQueue = t :: rest ∧
      d' = { d with taskQueue := rest } ∧ k = .routineUnlock (some t) ∧ ev = [.dequeued t]) ∨
    (∃ t, l = .routineCall (some t) ∧ k = .user true (user.call t) ∧ d' = d ∧
      ev = [.called t]) := by
  cases access h hf with
  | user hu hx => exact .inl ⟨trivial, trivial, rfl, by simp, by simp, by simp⟩
  | runBegin hu => exact .inl ⟨trivial, trivial, rfl, rfl, rfl, rfl⟩
  | taskReturn hu => exact .inl ⟨trivial, rfl, rfl, rfl, rfl, rfl⟩
  | runEnd => exact .inl ⟨trivial, trivial, rfl, rfl, rfl, rfl⟩
  | push => exact .inr (.inl ⟨_, _, _, rfl, rfl, rfl, rfl⟩)
  | empty hq => exact .inr (.inr (.inl ⟨_, rfl, rfl, rfl, by simp [Data.isEmpty, hq]⟩))
  | nonempty hq => exact .inr (.inr (.inl ⟨_, rfl, rfl, rfl, by simp [Data.isEmpty, hq]⟩))
  | getTask hq => exact .inr (.inr (.inr (.inl ⟨_, _, _, rfl, hq, rfl, rfl, rfl⟩)))
  | callTask => exact .inr (.inr (.inr (.inr ⟨_, rfl, rfl, rfl, rfl⟩)))

/-- An access keeps what is owned: the lock is taken and given back by calls of
its own. -/
theorem holds_of_act {l k : Pc τ U} {f i} {d d' : Data τ X} {ev}
    (h : prog (T := T) (S := S) user l = .act f) (hf : f i d = some (.next d' k ev))
    (m : Mutex) : holds k m ↔ holds l m := by
  obtain ⟨hl, hk, -⟩ | ⟨task, worker, u, rfl, rfl, -⟩ | ⟨task, rfl, -, -, rfl⟩ |
    ⟨task, t, rest, rfl, -, -, rfl, -⟩ | ⟨t, rfl, rfl, -⟩ := act_cases h hf
  · exact iff_of_false (not_holds_of_around hk m) (not_holds_of_around hl m)
  · exact Iff.rfl
  · split_ifs <;> exact Iff.rfl
  · exact Iff.rfl
  · exact Iff.rfl

/-- **The pool agrees with the annotation:** `pushTask` and `routine` lock
before they touch the queue, and unlock behind it. -/
theorem locks : Locks (prog (T := T) (S := S) user) holds where
  lock {l m k} h := by cases calls h <;> exact id
  unlock {l m k} h := by cases calls h <;> trivial
  condWait {l c m k} h := by
    cases calls h
    trivial
  create {l start k} h m := by
    cases calls h
    exact id
  leads {l k} hk m := by
    generalize hop : prog (T := T) (S := S) user l = o at hk ⊢
    cases m
    cases hc : calls hop with
    | pushTask hu | start | pushSignal | pushUnlock | routineLock | routineWait | routineUnlock =>
      cases hk
      simp [holds, Op.held]
    | exit hu => exact hk.elim
    | _ =>
      obtain ⟨i, d, d', ev, hf⟩ := hk
      exact holds_of_act hop hf .lock

/-- At first nobody owns the lock, and nobody is inside. -/
theorem owned_of_init {num : ℕ} {main : U → Prop} {x : X} {s : State T τ U X V}
    (h : Init num main x s) : Owned (prog user) holds s where
  owner m t := by
    rcases h.th t with ht | ⟨u, -, ht⟩ <;> simp [h.owner, ht, Status.Holds, holds]
  entered t := by
    rcases h.th t with ht | ⟨u, -, ht⟩ <;> simp [ht, Status.Entered]

/-! ### The queue -/

/-- The tasks pushed are those dequeued and those in the queue. -/
def Sound (d : Data τ X) (ev : List (Event τ V)) : Prop :=
  pushed ev = dequeued ev ++ d.taskQueue

/-- What the test of a worker has found out. -/
def found : Pc τ U → Data τ X → Prop
  | .routineWait _, d => d.taskQueue = []
  | .routineGet _, d => d.taskQueue ≠ []
  | _, _ => True

/-- An access keeps the account of the tasks: a task pushed comes to the back
of the queue, and the one dequeued is its front. -/
theorem Sound.act {l k : Pc τ U} {f i} {d d' : Data τ X} {ev e : List (Event τ V)}
    (h : prog (T := T) (S := S) user l = .act f) (hf : f i d = some (.next d' k e))
    (hs : Sound d ev) : Sound d' (ev ++ e) := by
  have hq : pushed ev = dequeued ev ++ d.taskQueue := hs
  show pushed (ev ++ e) = dequeued (ev ++ e) ++ d'.taskQueue
  obtain ⟨-, -, htq, hp, hd, -⟩ | ⟨task, worker, u, -, -, rfl, rfl⟩ | ⟨task, -, rfl, rfl, -⟩ |
    ⟨task, t, rest, -, hcons, rfl, -, rfl⟩ | ⟨t, -, -, rfl, rfl⟩ := act_cases h hf
  · simp [htq, hp, hd, hq]
  · simp [hq]
  · simpa using hq
  · simp [hq, hcons]
  · simpa using hq

/-- **`__lock` guards the queue.**  A worker past its test finds the queue not
empty when it comes to `getTask`, for nobody else can have been inside
since. -/
theorem monitor : Monitor (prog (T := T) (S := S) user) holds .lock (Sound (X := X))
    (fun l d ev => Sound d ev ∧ found l d) where
  acquire {l k d ev} h hf := by cases calls h <;> exact ⟨hf, trivial⟩
  release {l k d ev} h hi := hi.1
  sleep {l c k d ev} h hi := hi.1
  wake {l c k d ev} h hf := by
    cases calls h
    exact ⟨hf, trivial⟩
  nested {l c m k} h hl := by
    cases m
    rfl
  stay {l k d ev} hl hk hn hi := by
    generalize hop : prog (T := T) (S := S) user l = o at hk hn
    cases calls hop with
    | pushSignal =>
      cases hk
      exact ⟨hi.1, trivial⟩
    | pushUnlock | routineWait | routineUnlock => exact absurd rfl hn
    | pushPush | routineTest | routineGet => exact absurd trivial hn
    | _ => exact hl.elim
  act {l f i d d' k e ev} h hl hf hi := by
    refine ⟨hi.1.act h hf, ?_⟩
    obtain ⟨-, hk, -⟩ | ⟨task, worker, u, -, rfl, -⟩ | ⟨task, -, rfl, -, rfl⟩ |
      ⟨task, t, rest, -, -, -, rfl, -⟩ | ⟨t, -, rfl, -⟩ := act_cases h hf
    · exact absurd ((holds_of_act h hf .lock).2 hl) (not_holds_of_around hk _)
    · trivial
    · split_ifs with hb
      · have hnil : d'.taskQueue = [] := by simpa [Data.isEmpty] using hb
        exact hnil
      · have hne : d'.taskQueue ≠ [] := by simpa [Data.isEmpty] using hb
        exact hne
    · trivial
    · trivial
  others_free {l f i d d' k e ev} h hl hf hi := hi.act h hf
  others_inside {l f i d d' k e ev l'} h hl hf hl' hi := by
    refine ⟨hi.1.act h hf, ?_⟩
    obtain ⟨-, -, htq, -⟩ | ⟨task, worker, u, rfl, -⟩ | ⟨task, rfl, -⟩ | ⟨task, t, rest, rfl, -⟩ |
      ⟨t, -, -, rfl, -⟩ := act_cases h hf
    · cases l' with
      | routineWait task =>
        have hnil : d.taskQueue = [] := hi.2
        rw [← htq] at hnil
        exact hnil
      | routineGet task =>
        have hne : d.taskQueue ≠ [] := hi.2
        rw [← htq] at hne
        exact hne
      | _ => trivial
    · exact absurd trivial hl
    · exact absurd trivial hl
    · exact absurd trivial hl
    · exact hi.2

/-! ### The tasks of one worker -/

/-- The task a worker has dequeued and not called yet. -/
def Pc.held : Pc τ U → List τ
  | .routineUnlock task | .routineCall task => task.toList
  | _ => []

/-- A worker before its call has a task, which `getTask` gave it. -/
def Pc.Equipped : Pc τ U → Prop
  | .routineUnlock task | .routineCall task => task ≠ none
  | _ => True

/-- Outside `routine` a thread holds no task, and needs none. -/
theorem held_of_around {l : Pc τ U} (h : l.Around) : l.held = [] ∧ l.Equipped := by
  cases l with
  | user worker u => exact ⟨rfl, trivial⟩
  | run worker i u => exact ⟨rfl, trivial⟩
  | routineLock task => exact ⟨rfl, trivial⟩
  | _ => exact h.elim

/-- **What a worker dequeued it called,** but for the task it holds.  No lock
is needed for that, since `task` is its own variable. -/
theorem traced : Traced (prog (T := T) (S := S) (X := X) user)
    (fun l ev => dequeued ev = called ev ++ l.held ∧ l.Equipped) where
  create {l start k} h := by
    cases calls h
    exact ⟨rfl, trivial⟩
  stay {l k ev} hact hk hJ := by
    generalize hop : prog (T := T) (S := S) (X := X) user l = o at hact hk
    cases calls hop with
    | pushTask hu | start | pushSignal | pushUnlock | routineLock | routineWait | routineUnlock =>
      cases hk
      exact hJ
    | exit hu => exact hk.elim
    | _ => exact absurd rfl (hact _)
  act {l f i d d' k ev e} h hf hJ := by
    obtain ⟨hd, hplace⟩ := hJ
    obtain ⟨hl, hk, -, -, hed, hec⟩ | ⟨task, worker, u, rfl, rfl, -, rfl⟩ |
      ⟨task, rfl, -, rfl, rfl⟩ | ⟨task, t, rest, rfl, -, -, rfl, rfl⟩ |
      ⟨t, rfl, rfl, -, rfl⟩ := act_cases h hf
    · rw [(held_of_around hl).1] at hd
      refine ⟨?_, (held_of_around hk).2⟩
      simpa [hed, hec, (held_of_around hk).1] using hd
    · exact ⟨by simpa [Pc.held] using hd, trivial⟩
    · split_ifs <;> exact ⟨by simpa [Pc.held] using hd, trivial⟩
    · have hd' : dequeued ev = called ev := by simpa [Pc.held] using hd
      exact ⟨by simp [Pc.held, hd'], Option.some_ne_none t⟩
    · have hd' : dequeued ev = called ev ++ [t] := hd
      exact ⟨by simp [Pc.held, hd'], trivial⟩

/-- The task held by a thread. -/
def heldBy : Status Mutex Cond (Pc τ U) → List τ
  | .unborn => []
  | .run l | .waiting _ _ l | .woken _ l => l.held

/-- A task is held by a thread as often as by the place where it is or to which
it returns. -/
theorem weight_held [DecidableEq τ] (a : τ) (st : Status Mutex Cond (Pc τ U)) :
    st.weight (fun l => l.held.count a) = (heldBy st).count a := by
  cases st <;> rfl

/-- The weight of the events is that of the tasks called less that of the tasks
pushed. -/
theorem sum_weight [DecidableEq τ] (a : τ) (ev : List (Event τ V)) :
    (ev.map fun e => ((called [e]).count a : ℤ) - ((pushed [e]).count a : ℤ)).sum =
      ((called ev).count a : ℤ) - ((pushed ev).count a : ℤ) := by
  induction ev with
  | nil => simp
  | cons e ev ih =>
    have hc : called (e :: ev) = called [e] ++ called ev := called_append [e] ev
    have hp : pushed (e :: ev) = pushed [e] ++ pushed ev := pushed_append [e] ev
    rw [List.map_cons, List.sum_cons, ih, hc, hp, List.count_append, List.count_append]
    omega

/-- **A task pushed is in the queue, then held, then called:** each call keeps
the account.  It is kept for each task by itself, so that tasks that are pushed
twice are called twice. -/
theorem ledger [DecidableEq τ] (a : τ) : Ledger (prog (T := T) (S := S) (X := X) user)
    (fun l => (l.held.count a : ℤ)) (fun _ => 0) (fun d => (d.taskQueue.count a : ℤ))
    (fun e => ((called [e]).count a : ℤ) - ((pushed [e]).count a : ℤ)) where
  stay {l k} hk hs := by
    generalize hop : prog (T := T) (S := S) (X := X) user l = o at hk hs
    cases calls hop with
    | pushTask hu | start | pushSignal | pushUnlock | routineLock | routineWait | routineUnlock =>
      cases hk
      rfl
    | exit hu => exact hk.elim
    | _ => exact hs.elim
  semWait {l x k intr} h := by cases calls h
  semIntr {l x k k'} h := by cases calls h
  semPost {l x k} h := by cases calls h
  create {l start k} h := by
    cases calls h
    rfl
  act {l f i d d' k e} h hf := by
    rw [sum_weight]
    obtain ⟨hl, hk, hq, hp, -, hc⟩ | ⟨task, worker, u, rfl, rfl, rfl, rfl⟩ |
      ⟨task, rfl, rfl, rfl, rfl⟩ | ⟨task, t, rest, rfl, hq, rfl, rfl, rfl⟩ |
      ⟨t, rfl, rfl, rfl, rfl⟩ := act_cases h hf
    · simp [(held_of_around hl).1, (held_of_around hk).1, hq, hp, hc]
    · simp [Pc.held]
    · split_ifs <;> simp [Pc.held]
    · simp only [Pc.held, hq, Option.toList, List.count_cons, List.count_nil, called_dequeued,
        pushed_dequeued]
      push_cast
      omega
    · simp [Pc.held, add_comm]

section reachable

variable [DecidableEq T] {num : ℕ} {main : U → Prop} {x : X} {s : State T τ U X V}

/-- In every reachable state the owner of `__lock` is the thread that stands
between lock and unlock. -/
theorem owned (hs : (sys user num main x).Reachable s) : Owned (prog user) holds s :=
  locks.owned (fun _ h => owned_of_init h) hs

/-- **The invariant of the monitor, in every reachable state.**  With the lock
free the data are `Sound`; the worker inside knows in addition whether it has
found a task. -/
theorem guarded (hs : (sys user num main x).Reachable s) :
    Guarded holds .lock Sound (fun l d ev => Sound d ev ∧ found l d) s := by
  refine monitor.inv locks (fun _ h => owned_of_init h) (fun s h => ?_) hs
  refine ⟨fun _ => ?_, fun {t l} ht hl => ?_⟩
  · simp [Sound, h.data, St.events, h.log]
  · rcases h.th t with ht' | ⟨u, -, ht'⟩ <;> rw [ht'] at ht <;> cases ht
    exact hl.elim

/-- A thread that has found something out and holds the lock finds it so. -/
theorem found_of_run (hs : (sys user num main x).Reachable s) {t : T} {l : Pc τ U}
    (ht : s.th t = .run l) (hl : holds l .lock) : found l s.data :=
  ((guarded hs).inside ht hl).2

/-- **Nothing is lost and nothing overtakes:** the tasks pushed are those
dequeued followed by the queue.  It holds inside the critical sections too,
since each of them changes both sides at once. -/
theorem pushed_eq (hs : (sys user num main x).Reachable s) :
    pushed s.events = dequeued s.events ++ s.data.taskQueue := by
  refine data_invariant (J := Sound) (R := fun _ => True) (fun _ _ => trivial) (fun s h => ?_)
    (fun _ _ hf hnext hJ => hJ.act hf hnext) hs
  simp [Sound, h.data, St.events, h.log]

/-- Nobody changes how many threads `run()` starts: the number is set once,
when the pool is constructed. -/
theorem num_eq (hs : (sys user num main x).Reachable s) : s.data.num = num := by
  refine data_invariant (J := fun d _ => d.num = num) (R := fun _ => True) (fun _ _ => trivial)
    (fun s h => by rw [h.data]) ?_ hs
  intro s t l f i d k e _ _ hop hf h
  cases access hop hf <;> exact h

/-- In every reachable state what a thread dequeued and called fits the place
where it stands. -/
theorem obeying (hs : (sys user num main x).Reachable s) :
    Obeying (fun l ev => dequeued ev = called ev ++ l.held ∧ l.Equipped) s := by
  refine traced.obeys (fun s h t => ?_) hs
  have hnone : s.eventsOf t = [] := by simp [St.eventsOf, h.log]
  rw [hnone]
  rcases h.th t with ht | ⟨u, -, ht⟩ <;> rw [ht]
  · rfl
  · exact ⟨rfl, trivial⟩

/-- What a thread dequeued it called, in that order, but for the task it
holds. -/
theorem dequeued_eventsOf (hs : (sys user num main x).Reachable s) (t : T) :
    dequeued (s.eventsOf t) = called (s.eventsOf t) ++ heldBy (s.th t) := by
  have hJ := obeying hs t
  cases hst : s.th t with
  | unborn =>
    rw [hst] at hJ
    have hnone : s.eventsOf t = [] := hJ
    simp [hnone, heldBy]
  | run l | waiting c m l | woken m l =>
    rw [hst] at hJ
    exact hJ.1

/-- **No default-constructed task is called.**  A worker comes to its call only
by way of `getTask`. -/
theorem equipped (hs : (sys user num main x).Reachable s) (t : T) :
    s.th t ≠ .run (.routineCall none) := by
  intro ht
  have hJ := obeying hs t
  rw [ht] at hJ
  exact hJ.2 rfl

/-- **Every push is answered by one call, one holder or one place in the
queue.**  This counts over all workers, where `dequeued_eventsOf` speaks of
one. -/
theorem count_pushed [Fintype T] [DecidableEq τ] (hs : (sys user num main x).Reachable s) (a : τ) :
    (pushed s.events).count a = (called s.events).count a +
      s.tally (fun st => (heldBy st).count a) + s.data.taskQueue.count a := by
  have hledger : Ledger (prog (T := T) (S := Empty) user) _ _ _ _ := ledger a
  have hb := hledger.balance (b := 0) (fun s h => ?_) hs
  · rw [St.balance, sum_weight, St.tally_weight_cast, St.banked, Finset.univ_eq_empty,
      Finset.sum_empty] at hb
    have htally : s.tally (Status.weight fun l => l.held.count a) =
        s.tally fun st => (heldBy st).count a :=
      Finset.sum_congr rfl fun t _ => weight_held a _
    rw [htally] at hb
    omega
  · have htally : s.tally (Status.weight fun l => ((l.held.count a : ℕ) : ℤ)) = 0 :=
      Finset.sum_eq_zero fun t _ => by
        rcases h.th t with ht | ⟨u, -, ht⟩ <;> rw [ht] <;> rfl
    simp [St.balance, htally, St.banked, h.data, St.events, h.log]

/-- **`ThreadPool` executes every task exactly once and hands tasks out in push
order.**  In every reachable state: the tasks pushed are those dequeued
followed by the queue; what each thread dequeued it called, once and in that
order, but for the task it may be holding; each task was pushed as often as it
was called, is held or is queued; `getTask` finds the queue not empty; and
nobody calls a default-constructed task. -/
theorem executes_once [Fintype T] [DecidableEq τ] (hs : (sys user num main x).Reachable s) :
    pushed s.events = dequeued s.events ++ s.data.taskQueue ∧
      (∀ t, dequeued (s.eventsOf t) = called (s.eventsOf t) ++ heldBy (s.th t)) ∧
      (∀ a, (pushed s.events).count a = (called s.events).count a +
        s.tally (fun st => (heldBy st).count a) + s.data.taskQueue.count a) ∧
      (∀ t task, s.th t = .run (.routineGet task) → s.data.taskQueue ≠ []) ∧
      ∀ t, s.th t ≠ .run (.routineCall none) :=
  ⟨pushed_eq hs, dequeued_eventsOf hs, count_pushed hs,
    fun _ _ ht => found_of_run hs ht trivial, equipped hs⟩

end reachable

/-- A thread that pushes the task `7`, runs the pool and ends; the task itself
pushes the task `8`, which does nothing. -/
def pushThenRun : User ℕ ℕ Unit Unit Unit where
  op
    | 0 => .pushTask 7 1
    | 1 => .run 2
    | 3 => .pushTask 8 2
    | _ => .ret
  call task := if task = 7 then 3 else 2

/-- One worker takes the first task and is about to push the second from inside
it. -/
def pushThenRunSchedule : List (Fin 2 × Choice (Fin 2) Unit) :=
  [(caller, .go), (caller, .input ()), (caller, .wake ∅), (caller, .go), (caller, .input ()),
    (caller, .start worker),
    (worker, .go), (worker, .input ()), (worker, .input ()), (worker, .go), (worker, .input ()),
    (worker, .go), (worker, .input ())]

/-- After that run the worker has called the one task it dequeued, and pushed
another. -/
theorem executes_once_two : ∃ s : State (Fin 2) ℕ ℕ Unit Unit,
    pushed s.events = [7, 8] ∧ called (s.eventsOf 1) = [7] ∧
      dequeued (s.eventsOf 1) = called (s.eventsOf 1) ++ heldBy (s.th 1) := by
  have hinit := reachable_alone pushThenRun caller 1 0 ()
  obtain ⟨s, hs, hp, hc⟩ : ∃ s : State (Fin 2) ℕ ℕ Unit Unit,
      replay (prog pushThenRun) (alone caller 1 0 ()) pushThenRunSchedule = some s ∧
      pushed s.events = [7, 8] ∧ called (s.eventsOf 1) = [7] :=
    ⟨_, rfl, rfl, rfl⟩
  exact ⟨s, hp, hc, (executes_once (replay_reachable pushThenRunSchedule hinit hs)).2.1 1⟩

end ThreadPool
end OSNetWorkCode
