/-
# `ThreadPool`: workers that take tasks from a queue

`0211/threadPool.hpp`, and the same file again in `0215/tcp/threadPool`.
`pushTask` holds `__lock` through `lockGuard`, appends to `__task_queue` and
signals `__cond`.  Each of the `__num` threads started by `run()` loops over
`routine`: a default-constructed task, the lock, a wait on `__cond` while the
queue is empty, `getTask`, the unlock, and then the task is called without the
lock.

The code around the pool is a parameter (`User`): what the threads that use the
pool do, and what a task does when it is called.  Either may call `pushTask`
and `run()` at any point, and access data of its own; an access may be blocked
or undefined, and the environment may have a say in it.

The events record the tasks pushed and dequeued, in the order of the critical
sections, the tasks called, and what the user code records.
-/

import OSNetWorkCode.Pthread.Machine

namespace OSNetWorkCode
namespace ThreadPool

open Pthread

variable {T τ U X I V : Type*}

/-- What the code around the pool does at one of its places. -/
inductive UserOp (τ U X I V : Type*)
  /-- `pushTask(task)`, then `u`. -/
  | pushTask (task : τ) (u : U)
  /-- `run()`, then `u`. -/
  | run (u : U)
  | act (f : I → X → Option (Outcome X U V))
  | ret

/-- The code around the pool: what it does at each place, and where
`task(name)` begins. -/
structure User (τ U X I V : Type*) where
  op : U → UserOp τ U X I V
  call : τ → U

/-- The pool's one mutex, `__lock`. -/
inductive Mutex
  | lock
  deriving DecidableEq

/-- The pool's one condition variable, `__cond`. -/
inductive Cond
  | cond
  deriving DecidableEq

/-- The pool's number of threads and its queue, and the data of the code around
it. -/
structure Data (τ X : Type*) where
  num : ℕ
  taskQueue : List τ
  user : X

/-- `isEmpty()`. -/
def Data.isEmpty (d : Data τ X) : Bool := d.taskQueue.isEmpty

/-- What is recorded: tasks that enter the queue and leave it, tasks called,
and what the user code has to say. -/
inductive Event (τ V : Type*)
  | pushed (task : τ)
  | dequeued (task : τ)
  | called (task : τ)
  | user (v : V)

/-- Where a thread stands.  `worker` says whether it is one of the pool's
threads, executing a task; `task` is the local variable of `routine`, `none` as
long as it is only default-constructed. -/
inductive Pc (τ U : Type*)
  | user (worker : Bool) (u : U)
  /-- At the loop of `run()`, `i` threads still to start. -/
  | run (worker : Bool) (i : ℕ) (u : U)
  | pushPush (task : τ) (worker : Bool) (u : U)
  | pushSignal (worker : Bool) (u : U)
  | pushUnlock (worker : Bool) (u : U)
  | routineLock (task : Option τ)
  | routineTest (task : Option τ)
  | routineWait (task : Option τ)
  | routineGet (task : Option τ)
  | routineUnlock (task : Option τ)
  | routineCall (task : Option τ)

/-- The user code's own step, seen from the pool. -/
def userAct (worker : Bool) (f : I → X → Option (Outcome X U V)) (i : I) (d : Data τ X) :
    Option (Outcome (Data τ X) (Pc τ U) (Event τ V)) :=
  (f i d.user).map fun
    | .next x u ev => .next { d with user := x } (.user worker u) (ev.map .user)
    | .undefined => .undefined

/-- A task returns: the worker declares a new `T task` and goes round its
loop. -/
def taskReturn (_ : I) (d : Data τ X) :
    Option (Outcome (Data τ X) (Pc τ U) (Event τ V)) :=
  some (.next d (.routineLock none) [])

/-- `run()` reads how many threads there are to start. -/
def runBegin (worker : Bool) (u : U) (_ : I) (d : Data τ X) :
    Option (Outcome (Data τ X) (Pc τ U) (Event τ V)) :=
  some (.next d (.run worker d.num u) [])

/-- The loop of `run()` is over. -/
def runEnd (worker : Bool) (u : U) (_ : I) (d : Data τ X) :
    Option (Outcome (Data τ X) (Pc τ U) (Event τ V)) :=
  some (.next d (.user worker u) [])

/-- `__task_queue.push(task)`. -/
def push (task : τ) (worker : Bool) (u : U) (_ : I) (d : Data τ X) :
    Option (Outcome (Data τ X) (Pc τ U) (Event τ V)) :=
  some (.next { d with taskQueue := d.taskQueue ++ [task] } (.pushSignal worker u) [.pushed task])

/-- `while (tp->isEmpty())`. -/
def test (task : Option τ) (_ : I) (d : Data τ X) :
    Option (Outcome (Data τ X) (Pc τ U) (Event τ V)) :=
  some (.next d (if d.isEmpty then .routineWait task else .routineGet task) [])

/-- `task = tp->getTask()`. -/
def getTask (_ : I) (d : Data τ X) : Option (Outcome (Data τ X) (Pc τ U) (Event τ V)) :=
  match d.taskQueue with
  | t :: rest => some (.next { d with taskQueue := rest } (.routineUnlock (some t)) [.dequeued t])
  | [] => some .undefined

/-- `task(td->__name)`: a default-constructed `Task` has no function to
call. -/
def callTask (user : User τ U X I V) (task : Option τ) (_ : I) (d : Data τ X) :
    Option (Outcome (Data τ X) (Pc τ U) (Event τ V)) :=
  match task with
  | some t => some (.next d (.user true (user.call t)) [.called t])
  | none => some .undefined

/-- The pool and the code around it, call by call. -/
def prog {S : Type*} (user : User τ U X I V) :
    Pc τ U → Op T Mutex S Cond (Data τ X) (Pc τ U) I (Event τ V)
  | .user worker u =>
    match user.op u with
    | .pushTask task u' => .lock .lock (.pushPush task worker u')
    | .run u' => .act (runBegin worker u')
    | .act f => .act (userAct worker f)
    | .ret => if worker then .act taskReturn else .exit
  | .run worker 0 u => .act (runEnd worker u)
  | .run worker (i + 1) u => .create (.routineLock none) (.run worker i u)
  | .pushPush task worker u => .act (push task worker u)
  | .pushSignal worker u => .condSignal .cond (.pushUnlock worker u)
  | .pushUnlock worker u => .unlock .lock (.user worker u)
  | .routineLock task => .lock .lock (.routineTest task)
  | .routineTest task => .act (test task)
  | .routineWait task => .condWait .cond .lock (.routineTest task)
  | .routineGet _ => .act getTask
  | .routineUnlock task => .unlock .lock (.routineCall task)
  | .routineCall task => .act (callTask user task)

/-- States of the pool and the threads around it; there are no semaphores. -/
abbrev State (T τ U X V : Type*) := St T Mutex Empty Cond (Data τ X) (Pc τ U) (Event τ V)

/-- A pool of `num` threads just constructed, not yet running; some threads
begin at a place in `main`, with user data `x`. -/
structure Init (num : ℕ) (main : U → Prop) (x : X) (s : State T τ U X V) : Prop where
  owner : ∀ m, s.owner m = none
  th : ∀ t, s.th t = .unborn ∨ ∃ u, main u ∧ s.th t = .run (.user false u)
  data : s.data = ⟨num, [], x⟩
  log : s.log = []

/-- The runs of a pool of `num` threads. -/
def sys [DecidableEq T] (user : User τ U X I V) (num : ℕ) (main : U → Prop) (x : X) :
    System (State T τ U X V) :=
  system (prog user) (Init num main x)

/-- The thread `t₀` at `u` in the code around the pool, nobody else alive. -/
def alone [DecidableEq T] (t₀ : T) (num : ℕ) (u : U) (x : X) : State T τ U X V :=
  ⟨fun _ => none, nofun, fun t => if t = t₀ then .run (.user false u) else .unborn,
    ⟨num, [], x⟩, []⟩

/-- A pool that nobody but one thread uses is at the beginning of a run. -/
theorem reachable_alone [DecidableEq T] (user : User τ U X I V) (t₀ : T) (num : ℕ) (u : U)
    (x : X) : (sys user num (· = u) x).Reachable (alone t₀ num u x) := by
  refine .init ⟨fun _ => rfl, fun t => ?_, rfl, rfl⟩
  by_cases ht : t = t₀
  · exact .inr ⟨u, rfl, if_pos ht⟩
  · exact .inl (if_neg ht)

/-- The tasks pushed, in the order of the critical sections. -/
def pushed (ev : List (Event τ V)) : List τ :=
  ev.filterMap fun | .pushed t => some t | _ => none

/-- The tasks dequeued, in the order of the critical sections. -/
def dequeued (ev : List (Event τ V)) : List τ :=
  ev.filterMap fun | .dequeued t => some t | _ => none

/-- The tasks called. -/
def called (ev : List (Event τ V)) : List τ :=
  ev.filterMap fun | .called t => some t | _ => none

/-- What the user code recorded. -/
def userEvents (ev : List (Event τ V)) : List V :=
  ev.filterMap fun | .user v => some v | _ => none

/-! The four projections of the events, on what is added to them and on single
events: an event counts for one of them and for none of the others. -/

section simp

variable (t : τ) (ev ev' : List (Event τ V)) (vs : List V)

@[simp] theorem pushed_append : pushed (ev ++ ev') = pushed ev ++ pushed ev' :=
  List.filterMap_append ..

@[simp] theorem dequeued_append : dequeued (ev ++ ev') = dequeued ev ++ dequeued ev' :=
  List.filterMap_append ..

@[simp] theorem called_append : called (ev ++ ev') = called ev ++ called ev' :=
  List.filterMap_append ..

@[simp] theorem userEvents_append : userEvents (ev ++ ev') = userEvents ev ++ userEvents ev' :=
  List.filterMap_append ..

@[simp] theorem pushed_nil : pushed ([] : List (Event τ V)) = [] := rfl
@[simp] theorem dequeued_nil : dequeued ([] : List (Event τ V)) = [] := rfl
@[simp] theorem called_nil : called ([] : List (Event τ V)) = [] := rfl
@[simp] theorem userEvents_nil : userEvents ([] : List (Event τ V)) = [] := rfl
@[simp] theorem pushed_pushed : pushed [(.pushed t : Event τ V)] = [t] := rfl
@[simp] theorem pushed_dequeued : pushed [(.dequeued t : Event τ V)] = [] := rfl
@[simp] theorem pushed_called : pushed [(.called t : Event τ V)] = [] := rfl
@[simp] theorem dequeued_pushed : dequeued [(.pushed t : Event τ V)] = [] := rfl
@[simp] theorem dequeued_dequeued : dequeued [(.dequeued t : Event τ V)] = [t] := rfl
@[simp] theorem dequeued_called : dequeued [(.called t : Event τ V)] = [] := rfl
@[simp] theorem called_pushed : called [(.pushed t : Event τ V)] = [] := rfl
@[simp] theorem called_dequeued : called [(.dequeued t : Event τ V)] = [] := rfl
@[simp] theorem called_called : called [(.called t : Event τ V)] = [t] := rfl
@[simp] theorem userEvents_pushed : userEvents [(.pushed t : Event τ V)] = [] := rfl
@[simp] theorem userEvents_dequeued : userEvents [(.dequeued t : Event τ V)] = [] := rfl
@[simp] theorem userEvents_called : userEvents [(.called t : Event τ V)] = [] := rfl

/-- What the user code records is no event of the pool.  So what the pool
counts is not disturbed by the code around it, whatever that records. -/
@[simp] theorem pushed_user : pushed (vs.map (.user : V → Event τ V)) = [] := by
  simp [pushed]

@[simp] theorem dequeued_user : dequeued (vs.map (.user : V → Event τ V)) = [] := by
  simp [dequeued]

@[simp] theorem called_user : called (vs.map (.user : V → Event τ V)) = [] := by
  simp [called]

@[simp] theorem userEvents_user : userEvents (vs.map (.user : V → Event τ V)) = vs := by
  simp [userEvents, List.filterMap_map]

end simp

/-! ### What each call does -/

/-- The calls made at each place, listed. -/
inductive Calls {S : Type*} (user : User τ U X I V) :
    Pc τ U → Op T Mutex S Cond (Data τ X) (Pc τ U) I (Event τ V) → Prop
  | pushTask {worker u task u'} (hu : user.op u = .pushTask task u') :
      Calls user (.user worker u) (.lock .lock (.pushPush task worker u'))
  | runBegin {worker u u'} (hu : user.op u = .run u') :
      Calls user (.user worker u) (.act (runBegin worker u'))
  | userAct {worker u f} (hu : user.op u = .act f) :
      Calls user (.user worker u) (.act (userAct worker f))
  | taskReturn {u} (hu : user.op u = .ret) : Calls user (.user true u) (.act taskReturn)
  | exit {u} (hu : user.op u = .ret) : Calls user (.user false u) .exit
  | runEnd {worker u} : Calls user (.run worker 0 u) (.act (runEnd worker u))
  | start {worker i u} :
      Calls user (.run worker (i + 1) u) (.create (.routineLock none) (.run worker i u))
  | pushPush {task worker u} : Calls user (.pushPush task worker u) (.act (push task worker u))
  | pushSignal {worker u} :
      Calls user (.pushSignal worker u) (.condSignal .cond (.pushUnlock worker u))
  | pushUnlock {worker u} : Calls user (.pushUnlock worker u) (.unlock .lock (.user worker u))
  | routineLock {task} : Calls user (.routineLock task) (.lock .lock (.routineTest task))
  | routineTest {task} : Calls user (.routineTest task) (.act (test task))
  | routineWait {task} :
      Calls user (.routineWait task) (.condWait .cond .lock (.routineTest task))
  | routineGet {task} : Calls user (.routineGet task) (.act getTask)
  | routineUnlock {task} : Calls user (.routineUnlock task) (.unlock .lock (.routineCall task))
  | routineCall {task} : Calls user (.routineCall task) (.act (callTask user task))

/-- **Every place makes one of these calls.**  The program is taken apart with
this lemma, so that no later proof unfolds it. -/
theorem calls {S : Type*} {user : User τ U X I V} {l : Pc τ U}
    {o : Op T Mutex S Cond (Data τ X) (Pc τ U) I (Event τ V)} (h : prog user l = o) :
    Calls user l o := by
  subst h
  cases l with
  | user worker u =>
    cases hu : user.op u with
    | pushTask task u' => simpa [prog, hu] using Calls.pushTask hu
    | run u' => simpa [prog, hu] using Calls.runBegin hu
    | act f => simpa [prog, hu] using Calls.userAct hu
    | ret =>
      cases worker with
      | true => simpa [prog, hu] using Calls.taskReturn hu
      | false => simpa [prog, hu] using Calls.exit hu
  | run worker i u =>
    cases i with
    | zero => exact .runEnd
    | succ i => exact .start
  | _ => constructor

/-- The accesses, by the place they are made at: what they leave, where they go
on and what they record. -/
inductive Access (user : User τ U X I V) (i : I) (d : Data τ X) :
    Pc τ U → Data τ X → Pc τ U → List (Event τ V) → Prop
  /-- A step of the user code leaves the pool alone. -/
  | user {worker u f x u' vs} (hu : user.op u = .act f)
      (hx : f i d.user = some (.next x u' vs)) :
      Access user i d (.user worker u) { d with user := x } (.user worker u') (vs.map .user)
  | runBegin {worker u u'} (hu : user.op u = .run u') :
      Access user i d (.user worker u) d (.run worker d.num u') []
  | taskReturn {u} (hu : user.op u = .ret) :
      Access user i d (.user true u) d (.routineLock none) []
  | runEnd {worker u} : Access user i d (.run worker 0 u) d (.user worker u) []
  | push {task worker u} : Access user i d (.pushPush task worker u)
      { d with taskQueue := d.taskQueue ++ [task] } (.pushSignal worker u) [.pushed task]
  | empty {task} (hq : d.taskQueue = []) :
      Access user i d (.routineTest task) d (.routineWait task) []
  | nonempty {task} (hq : d.taskQueue ≠ []) :
      Access user i d (.routineTest task) d (.routineGet task) []
  | getTask {task t rest} (hq : d.taskQueue = t :: rest) : Access user i d (.routineGet task)
      { d with taskQueue := rest } (.routineUnlock (some t)) [.dequeued t]
  | callTask {t} :
      Access user i d (.routineCall (some t)) d (.user true (user.call t)) [.called t]

section access

variable {S : Type*} {user : User τ U X I V} {i : I} {d d' : Data τ X} {l k : Pc τ U}
variable {ev : List (Event τ V)}

/-- **Every access is one of these.**  The first rule is the step of the user
code, which leaves the pool alone; the others are the pool's own. -/
theorem access {f} (h : prog (T := T) (S := S) user l = .act f)
    (hf : f i d = some (.next d' k ev)) : Access user i d l d' k ev := by
  cases calls h with
  | @runBegin worker u u' hu =>
    obtain ⟨rfl, rfl, rfl⟩ := Outcome.next.inj (Option.some.inj hf)
    exact .runBegin hu
  | @userAct worker u f hu =>
    unfold userAct at hf
    cases hx : f i d.user with
    | none =>
      rw [hx] at hf
      cases hf
    | some o =>
      rw [hx] at hf
      cases o with
      | undefined => cases hf
      | next x u' vs =>
        obtain ⟨rfl, rfl, rfl⟩ := Outcome.next.inj (Option.some.inj hf)
        exact .user hu hx
  | taskReturn hu =>
    obtain ⟨rfl, rfl, rfl⟩ := Outcome.next.inj (Option.some.inj hf)
    exact .taskReturn hu
  | runEnd =>
    obtain ⟨rfl, rfl, rfl⟩ := Outcome.next.inj (Option.some.inj hf)
    exact .runEnd
  | pushPush =>
    obtain ⟨rfl, rfl, rfl⟩ := Outcome.next.inj (Option.some.inj hf)
    exact .push
  | routineTest =>
    obtain ⟨rfl, rfl, rfl⟩ := Outcome.next.inj (Option.some.inj hf)
    split_ifs with hempty
    · exact .empty (by simpa [Data.isEmpty] using hempty)
    · exact .nonempty (by simpa [Data.isEmpty] using hempty)
  | routineGet =>
    unfold getTask at hf
    split at hf
    · rename_i t rest hq
      obtain ⟨rfl, rfl, rfl⟩ := Outcome.next.inj (Option.some.inj hf)
      exact .getTask hq
    · cases hf
  | @routineCall task =>
    cases task with
    | none => cases hf
    | some t =>
      obtain ⟨rfl, rfl, rfl⟩ := Outcome.next.inj (Option.some.inj hf)
      exact .callTask

/-- The user code is undefined only by itself: the pool adds nothing undefined
to its steps. -/
theorem userAct_undefined {worker : Bool} {f : I → X → Option (Outcome X U V)}
    (h : userAct worker f i d = some .undefined) : f i d.user = some .undefined := by
  unfold userAct at h
  cases hf : f i d.user with
  | none =>
    rw [hf] at h
    cases h
  | some o =>
    rw [hf] at h
    cases o with
    | undefined => rfl
    | next x u' vs => cases h

end access

end ThreadPool
end OSNetWorkCode
