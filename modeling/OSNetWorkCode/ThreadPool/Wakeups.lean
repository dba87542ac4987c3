/-
# `ThreadPool` never leaves a task queued next to an idle worker

`pushTask` signals once for each task.  A signal with nobody asleep is lost, a
woken worker may find its task taken by another one, and it may have woken up
by itself; still one signal for each task is enough (`wakeups`): counted as
work are the queued tasks, and each worker on its way to the test, or past it,
sees to one of them, as does a `pushTask` that has not signalled yet.  A worker
that takes a task meant for another leaves that one on its way to the test.

So with the lock free there are at most as many tasks queued as workers woken,
if a worker sleeps at all, and in a state without steps no task is queued or no
worker sleeps.  The user code may do what it likes, block or run into something
undefined: it is never inside a critical section of the pool.
-/

import OSNetWorkCode.Pthread.Wakeups
import OSNetWorkCode.ThreadPool.Tasks

namespace OSNetWorkCode
namespace ThreadPool

open Pthread

variable {T τ U X I V : Type*} {user : User τ U X I V}

/-- The threads that will take a task out of the queue, or signal somebody who
will. -/
def seesToTask : Pc τ U → ℕ
  | .pushSignal .. | .routineTest _ | .routineGet _ => 1
  | _ => 0

/-- A thread sees to one task at a time. -/
theorem seesToTask_le_one (l : Pc τ U) : seesToTask l ≤ 1 := by
  cases l <;> simp [seesToTask]

/-- Outside the critical sections nobody sees to a task: a worker does from its
test on. -/
theorem seesToTask_of_not_holds {l : Pc τ U} (h : ¬ holds l .lock) : seesToTask l = 0 := by
  cases l with
  | pushSignal worker u => exact absurd trivial h
  | routineTest task => exact absurd trivial h
  | routineGet task => exact absurd trivial h
  | _ => rfl

/-- A worker woken that has not tested the queue again. -/
def isWoken : Status Mutex Cond (Pc τ U) → Bool
  | .woken .. => true
  | _ => false

variable [DecidableEq T] {num : ℕ} {main : U → Prop} {x : X} {s : State T τ U X V}

/-- **Every task queued is seen to.**  The debt is the length of the queue; a
worker that finds it empty and goes to sleep leaves none behind. -/
theorem wakeups : Wakeups (prog user) (sys (T := T) (V := V) user num main x).Reachable .cond 0
    (fun d => d.taskQueue.length) seesToTask where
  signal {l k} h := by
    cases calls h
    exact le_rfl
  wake {l m k} h := by
    cases calls h
    exact le_rfl
  sleep {s t l m k} hs ht h := by
    cases calls h
    have hnil : s.data.taskQueue = [] := found_of_run hs ht trivial
    simp [hnil]
  others {l c' m k} h hc := by
    cases calls h
    exact absurd rfl hc
  stay {l k} hk hp := by
    generalize hop : prog (T := T) (S := Empty) (X := X) user l = o at hk hp
    cases calls hop with
    | pushTask hu | exit hu | start | pushUnlock | routineLock | routineWait | routineUnlock =>
      exact Nat.zero_le _
    | pushSignal => exact absurd rfl hp
    | _ => exact hp.elim
  act {s t l f i d k ev} hs ht h hf := by
    obtain ⟨hl, hk, hq, -⟩ | ⟨task, worker, u, rfl, rfl, rfl, -⟩ | ⟨task, rfl, rfl, -, rfl⟩ |
      ⟨task, t', rest, rfl, hq, rfl, rfl, -⟩ | ⟨t', rfl, rfl, rfl, -⟩ := act_cases h hf
    · left
      rw [hq, seesToTask_of_not_holds (not_holds_of_around hl _),
        seesToTask_of_not_holds (not_holds_of_around hk _)]
    · left
      simp [seesToTask]
    · split_ifs with hb
      · have hnil : s.data.taskQueue = [] := by simpa [Data.isEmpty] using hb
        simp [hnil]
      · exact .inl le_rfl
    · left
      simp [hq, seesToTask]
    · exact .inl le_rfl

/-- With the lock free, those who see to a task are the workers woken: nobody
is inside, and each worker sees to one task at most. -/
theorem tally_le_woken [Fintype T] (hs : (sys user num main x).Reachable s)
    (hfree : s.owner .lock = none) :
    s.tally (Status.awake seesToTask) ≤ (Finset.univ.filter fun t => isWoken (s.th t)).card := by
  rw [Finset.card_filter]
  refine Finset.sum_le_sum fun t _ => ?_
  cases hst : s.th t with
  | run l =>
    have hnot : ¬ holds l .lock := fun hl => by
      have hown := ((owned hs).owner .lock t).2 (by rw [hst]; exact hl)
      rw [hfree] at hown
      cases hown
    simp [Status.awake, seesToTask_of_not_holds hnot]
  | woken m k => simpa [Status.awake, isWoken] using seesToTask_le_one k
  | _ => simp [Status.awake]

/-- **One signal a task is enough.**  While a worker sleeps, each task in the
queue has a woken worker of its own on the way to it. -/
theorem queue_le_woken [Fintype T] (hs : (sys user num main x).Reachable s)
    (hfree : s.owner .lock = none) (hw : ∃ t, (s.th t).WaitsOn .cond) :
    s.data.taskQueue.length ≤ (Finset.univ.filter fun t => isWoken (s.th t)).card := by
  have hcovered : Covered .cond 0 (fun d => d.taskQueue.length) seesToTask s :=
    wakeups.debt_le (fun _ hr => owned hr) (fun _ hr => hr)
      (fun s h t ht => by rcases h.th t with hst | ⟨u, -, hst⟩ <;> rw [hst] at ht <;> exact ht) hs
  have hle : s.data.taskQueue.length ≤ 0 + s.tally (Status.awake seesToTask) := hcovered hw
  have hwoken := tally_le_woken hs hfree
  omega

omit [DecidableEq T] in
/-- Nothing blocks inside a critical section of the pool.  A task is called
outside, so that whatever it waits for keeps nobody from the queue. -/
theorem prompt {S : Type*} [Inhabited I] :
    Prompt (prog (T := T) (S := S) (X := X) (V := V) user) holds where
  lock {l m k} h m' := by cases calls h <;> exact id
  condWait {l c m k} h m' _ := by
    cases m
    cases m'
    rfl
  semWait {l x k intr} h := by cases calls h
  create {l start k} h m := by
    cases calls h
    exact id
  join {l u k} h := by cases calls h
  act {l f m} h hl d := by
    cases calls h with
    | pushPush => exact ⟨default, _, rfl⟩
    | routineTest => exact ⟨default, _, rfl⟩
    | routineGet =>
      cases hq : d.taskQueue with
      | nil => exact ⟨default, .undefined, by simp [getTask, hq]⟩
      | cons t rest => exact ⟨default, _, by simp [getTask, hq]; rfl⟩
    | _ => exact hl.elim
  exit {l} h m := by
    cases calls h
    exact id

/-- Nothing is undefined inside a critical section of the pool, whatever the
code around it does outside. -/
theorem not_faultyInside (hs : (sys user num main x).Reachable s) :
    ¬ FaultyInside (prog user) holds s := by
  rintro ⟨t, l, m, f, i, ht, hl, hop, hu⟩
  cases calls hop with
  | pushPush => cases hu
  | routineTest => cases hu
  | routineGet =>
    have hne : s.data.taskQueue ≠ [] := found_of_run hs ht trivial
    unfold getTask at hu
    split at hu
    · cases hu
    · exact hne (by assumption)
  | _ => exact hl.elim

/-- In a state without steps no task is queued or no worker sleeps.  The lock
is free there and nobody is woken. -/
theorem idle_of_quiescent [Fintype T] [Inhabited I] (hs : (sys user num main x).Reachable s)
    (hq : Quiescent (prog user) s) : s.data.taskQueue = [] ∨ ∀ t, ¬ (s.th t).WaitsOn .cond := by
  by_cases hw : ∃ t, (s.th t).WaitsOn .cond
  · left
    have hfree := hq.owner_eq_none locks prompt (owned hs) (not_faultyInside hs) .lock
    have hle := queue_le_woken hs hfree hw
    have hnone : (Finset.univ.filter fun t => isWoken (s.th t)) = ∅ := by
      refine Finset.filter_eq_empty_iff.2 fun t _ => ?_
      cases hst : s.th t with
      | woken m k =>
        exact absurd hst (hq.not_woken locks prompt (owned hs) (not_faultyInside hs) t m k)
      | _ => simp [isWoken]
    rw [hnone, Finset.card_empty] at hle
    exact List.length_eq_zero_iff.1 (Nat.le_zero.1 hle)
  · exact .inr (not_exists.1 hw)

/-- A worker executing a task, or about to, does not own the lock.  So a task
may call `pushTask` itself. -/
theorem executes_unlocked (hs : (sys user num main x).Reachable s) {t : T} {l : Pc τ U}
    (ht : s.th t = .run l) (hl : ¬ holds l .lock) : s.owner .lock ≠ some t := fun hown => by
  have hh := ((owned hs).owner .lock t).1 hown
  rw [ht] at hh
  exact hl hh

/-- **`ThreadPool` never leaves a task queued next to an idle worker.**  In
every reachable state: with the lock free and a worker asleep, no more tasks
are queued than workers are woken; if no thread has a step, no task is queued
or no worker is asleep; and a worker executing a task, be it at a call of
`pushTask`, does not own the lock. -/
theorem no_idle_worker [Fintype T] [Inhabited I] (hs : (sys user num main x).Reachable s) :
    (s.owner .lock = none → (∃ t, (s.th t).WaitsOn .cond) →
      s.data.taskQueue.length ≤ (Finset.univ.filter fun t => isWoken (s.th t)).card) ∧
      (Quiescent (prog user) s → s.data.taskQueue = [] ∨ ∀ t, ¬ (s.th t).WaitsOn .cond) ∧
      (∀ t task, s.th t = .run (.routineCall task) → s.owner .lock ≠ some t) ∧
      ∀ t u, s.th t = .run (.user true u) → s.owner .lock ≠ some t :=
  ⟨queue_le_woken hs, idle_of_quiescent hs, fun _ _ ht => executes_unlocked hs ht id,
    fun _ _ ht => executes_unlocked hs ht id⟩

/-- A thread that runs the pool, pushes the task `7` and ends. -/
def runThenPush : User ℕ ℕ Unit Unit Unit where
  op
    | 0 => .run 1
    | 1 => .pushTask 7 2
    | _ => .ret
  call _ := 2

/-- Both workers `v` and `w` fall asleep; then `t` pushes the task, and the
signal wakes `v`. -/
def runThenPushSchedule {T : Type*} (t v w : T) : List (T × Choice T Unit) :=
  [(t, .input ()), (t, .start v), (t, .start w), (t, .input ()), (v, .go), (v, .input ()),
    (v, .go), (w, .go), (w, .input ()), (w, .go), (t, .go), (t, .input ()), (t, .wake {v}), (t, .go)]

/-- After that run one task is queued, one worker is woken and one asleep, with
the lock free: the one that is woken is enough. -/
theorem no_idle_worker_two : ∃ s : State (Fin 3) ℕ ℕ Unit Unit,
    s.owner .lock = none ∧ (∃ t, (s.th t).WaitsOn .cond) ∧ s.data.taskQueue = [7] ∧
      s.data.taskQueue.length ≤ (Finset.univ.filter fun t => isWoken (s.th t)).card := by
  have hinit := reachable_alone runThenPush (0 : Fin 3) 2 0 ()
  obtain ⟨s, hs, hfree, h2, hq⟩ : ∃ s : State (Fin 3) ℕ ℕ Unit Unit,
      replay (prog runThenPush) (alone 0 2 0 ()) (runThenPushSchedule 0 1 2) = some s ∧
      s.owner .lock = none ∧ s.th 2 = .waiting .cond .lock (.routineTest none) ∧
      s.data.taskQueue = [7] :=
    ⟨_, rfl, rfl, rfl, rfl⟩
  have hwait : (s.th 2).WaitsOn .cond := by
    rw [h2]
    rfl
  exact ⟨s, hfree, ⟨2, hwait⟩, hq,
    (no_idle_worker (replay_reachable (runThenPushSchedule 0 1 2) hinit hs)).1 hfree ⟨2, hwait⟩⟩

end ThreadPool
end OSNetWorkCode
