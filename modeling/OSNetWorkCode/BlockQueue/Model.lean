/-
# `BlockQueue`: a bounded queue under one mutex and two condition variables

`0114/BlockQueue.hpp` (the code in force: the `#if 0` block of `push` is an
earlier version).  `push` holds `__mtx` through `lockGuard`, waits on `__Full`
while `__bq.size() == __capacity`, pushes, and signals `__Empty` if the queue
is then at least half full (`__bq.size() >= __capacity / 2`); `pop` waits on
`__Empty` while the queue is empty, takes the front, and signals `__Full`.  The
guard unlocks at the end.

Every test, wait, access, signal and unlock is a step of its own.  A thread is
its place in a call and the calls after it: `κ` says what a thread will still
do, and `next` takes the next call off it (a list of calls and its head, or a
loop that always goes on).  The events record the values pushed and popped, in
the order of the critical sections.
-/

import OSNetWorkCode.Pthread.Todo

namespace OSNetWorkCode
namespace BlockQueue

open Pthread

variable {α κ : Type*}

/-- The one mutex, `__mtx`. -/
inductive Mutex
  | mtx
  deriving DecidableEq

/-- `__Empty`, on which `pop` waits, and `__Full`, on which `push` waits. -/
inductive Cond
  | empty
  | full
  deriving DecidableEq

/-- The queue and its capacity. -/
structure Data (α : Type*) where
  bq : List α
  capacity : ℕ

/-- `__isQueueEmpty`. -/
def Data.isQueueEmpty (d : Data α) : Bool := d.bq.length = 0

/-- `__isQueueFull`. -/
def Data.isQueueFull (d : Data α) : Bool := d.bq.length = d.capacity

/-- What is recorded of a call: the value it has put into the queue or taken
out. -/
inductive Event (α : Type*)
  | pushed (v : α)
  | popped (v : α)

/-- Where a thread stands; `k` is what it does after the current call. -/
inductive Pc (α κ : Type*)
  | ready (k : κ)
  /-- At `while(this->__isQueueFull())`. -/
  | pushTest (v : α) (k : κ)
  | pushWait (v : α) (k : κ)
  | pushBack (v : α) (k : κ)
  /-- At `if (__bq.size() >= __capacity / 2)`. -/
  | pushHalf (k : κ)
  | pushSignal (k : κ)
  /-- At `while (__isQueueEmpty())`. -/
  | popTest (k : κ)
  | popWait (k : κ)
  | popFront (k : κ)
  | popSignal (k : κ)
  /-- At the destructor of `lockGuard`. -/
  | unlock (k : κ)

/-- A read of the queue that decides where to go on. -/
def test (b : Data α → Bool) (yes no : Pc α κ) (_ : Unit) (d : Data α) :
    Option (Outcome (Data α) (Pc α κ) (Event α)) :=
  some (.next d (if b d then yes else no) [])

/-- `__bq.push(in)`. -/
def push (v : α) (l : Pc α κ) (_ : Unit) (d : Data α) :
    Option (Outcome (Data α) (Pc α κ) (Event α)) :=
  some (.next { d with bq := d.bq ++ [v] } l [.pushed v])

/-- `*out = __bq.front(); __bq.pop()`. -/
def front (l : Pc α κ) (_ : Unit) (d : Data α) :
    Option (Outcome (Data α) (Pc α κ) (Event α)) :=
  match d.bq with
  | v :: rest => some (.next { d with bq := rest } l [.popped v])
  | [] => some .undefined

/-- `push` and `pop`, call by call. -/
def prog {T S : Type*} (next : κ → Option (Call α × κ)) :
    Pc α κ → Op T Mutex S Cond (Data α) (Pc α κ) Unit (Event α)
  | .ready k =>
    match next k with
    | some (.push v, k') => .lock .mtx (.pushTest v k')
    | some (.pop, k') => .lock .mtx (.popTest k')
    | none => .exit
  | .pushTest v k => .act (test Data.isQueueFull (.pushWait v k) (.pushBack v k))
  | .pushWait v k => .condWait .full .mtx (.pushTest v k)
  | .pushBack v k => .act (push v (.pushHalf k))
  | .pushHalf k =>
    .act (test (fun d => d.bq.length ≥ d.capacity / 2) (.pushSignal k) (.unlock k))
  | .pushSignal k => .condSignal .empty (.unlock k)
  | .popTest k => .act (test Data.isQueueEmpty (.popWait k) (.popFront k))
  | .popWait k => .condWait .empty .mtx (.popTest k)
  | .popFront k => .act (front (.popSignal k))
  | .popSignal k => .condSignal .full (.unlock k)
  | .unlock k => .unlock .mtx (.ready k)

/-- The calls made at each place, listed. -/
inductive Calls {T S : Type*} (next : κ → Option (Call α × κ)) :
    Pc α κ → Op T Mutex S Cond (Data α) (Pc α κ) Unit (Event α) → Prop
  | callPush {k v k'} (hk : next k = some (.push v, k')) :
      Calls next (.ready k) (.lock .mtx (.pushTest v k'))
  | callPop {k k'} (hk : next k = some (.pop, k')) :
      Calls next (.ready k) (.lock .mtx (.popTest k'))
  | done {k} (hk : next k = none) : Calls next (.ready k) .exit
  | pushTest {v k} : Calls next (.pushTest v k)
      (.act (test Data.isQueueFull (.pushWait v k) (.pushBack v k)))
  | pushWait {v k} : Calls next (.pushWait v k) (.condWait .full .mtx (.pushTest v k))
  | pushBack {v k} : Calls next (.pushBack v k) (.act (push v (.pushHalf k)))
  | pushHalf {k} : Calls next (.pushHalf k)
      (.act (test (fun d => d.bq.length ≥ d.capacity / 2) (.pushSignal k) (.unlock k)))
  | pushSignal {k} : Calls next (.pushSignal k) (.condSignal .empty (.unlock k))
  | popTest {k} : Calls next (.popTest k)
      (.act (test Data.isQueueEmpty (.popWait k) (.popFront k)))
  | popWait {k} : Calls next (.popWait k) (.condWait .empty .mtx (.popTest k))
  | popFront {k} : Calls next (.popFront k) (.act (front (.popSignal k)))
  | popSignal {k} : Calls next (.popSignal k) (.condSignal .full (.unlock k))
  | unlock {k} : Calls next (.unlock k) (.unlock .mtx (.ready k))

/-- **Every place makes one of these calls.**  The program is taken apart with
this lemma, place by place, so that no later proof unfolds it. -/
theorem calls {T S : Type*} {next : κ → Option (Call α × κ)} {l : Pc α κ}
    {o : Op T Mutex S Cond (Data α) (Pc α κ) Unit (Event α)} (h : prog next l = o) :
    Calls next l o := by
  subst h
  cases l with
  | ready k =>
    cases hk : next k with
    | none => simpa [prog, hk] using Calls.done hk
    | some c =>
      obtain ⟨c, k'⟩ := c
      cases c with
      | push v => simpa [prog, hk] using Calls.callPush hk
      | pop => simpa [prog, hk] using Calls.callPop hk
  | _ => constructor

/-- States of the queue and its threads; there are no semaphores. -/
abbrev State (T α κ : Type*) := St T Mutex Empty Cond (Data α) (Pc α κ) (Event α)

/-- An empty queue of capacity `n`, and threads with any calls to make. -/
structure Init {T : Type*} (n : ℕ) (s : State T α κ) : Prop where
  owner : ∀ m, s.owner m = none
  th : ∀ t, ∃ k, s.th t = .run (.ready k)
  data : s.data = ⟨[], n⟩
  log : s.log = []

/-- The runs of a queue of capacity `n`. -/
def sys {T : Type*} [DecidableEq T] (next : κ → Option (Call α × κ)) (n : ℕ) :
    System (State T α κ) :=
  system (prog next) (Init n)

/-- The values pushed, in the order of the critical sections. -/
def pushed (ev : List (Event α)) : List α :=
  ev.filterMap fun | .pushed v => some v | _ => none

/-- The values popped, in the order of the critical sections. -/
def popped (ev : List (Event α)) : List α :=
  ev.filterMap fun | .popped v => some v | _ => none

/-! The two projections of the events, on what is added to them and on single
events. -/

@[simp] theorem pushed_append (a b : List (Event α)) : pushed (a ++ b) = pushed a ++ pushed b :=
  List.filterMap_append ..

@[simp] theorem popped_append (a b : List (Event α)) : popped (a ++ b) = popped a ++ popped b :=
  List.filterMap_append ..

@[simp] theorem pushed_nil : pushed ([] : List (Event α)) = [] := rfl
@[simp] theorem popped_nil : popped ([] : List (Event α)) = [] := rfl
@[simp] theorem pushed_pushed (v : α) : pushed [.pushed v] = [v] := rfl
@[simp] theorem pushed_popped (v : α) : pushed [.popped v] = [] := rfl
@[simp] theorem popped_pushed (v : α) : popped [.pushed v] = [] := rfl
@[simp] theorem popped_popped (v : α) : popped [.popped v] = [v] := rfl

end BlockQueue
end OSNetWorkCode
