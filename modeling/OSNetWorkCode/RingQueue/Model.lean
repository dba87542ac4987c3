/-
# `RingQueue`: a ring of slots under two semaphores and two locks

`0208/RingQueue/ringQueue.hpp` and `sem.hpp`.  `push` takes a permit of
`__space_sem`, locks `__p_lock`, stores at `__p_step++`, reduces `__p_step`
modulo `__size`, unlocks, and posts `__data_sem`; `pop` is the mirror image on
`__data_sem`, `__c_lock`, `__c_step` and `__space_sem`.  Producers and
consumers take different locks, so a `push` and a `pop` may be anywhere at the
same time.

Each of these is a step of its own, the store and the reduction included, so
that another thread may act between any two of them.  A thread is a list of
calls still to make.  `Env` says what the environment may do against the
program: interrupt `sem_wait`, whose result `Sem::p` does not look at, or make
the copy assignment of an element throw, which leaves `push` or `pop` at once:
the cursor was advanced by then and the raw lock stays taken.  `Env.calm` does
neither.

The events record the values stored and delivered, in the order of the critical
sections.
-/

import OSNetWorkCode.Pthread.Todo

namespace OSNetWorkCode
namespace RingQueue

open Pthread

variable {α : Type*}

/-- The two raw mutexes: `__c_lock` of the consumers and `__p_lock` of the
producers. -/
inductive Mutex
  | cLock
  | pLock
  deriving DecidableEq

/-- The two semaphores: free slots and values stored. -/
inductive Sem
  | spaceSem
  | dataSem
  deriving DecidableEq

/-- There are two of them, so that their permits can be added up. -/
instance : Fintype Sem := ⟨{.spaceSem, .dataSem}, fun x => by cases x <;> simp⟩

/-- The fields of `RingQueue` that are not synchronization objects. -/
structure Data (α : Type*) where
  ringQueue : List α
  size : ℕ
  cStep : ℕ
  pStep : ℕ

/-- `RingQueue(int default_num)`: a vector of `n` default-constructed elements,
both cursors `0`. -/
def Data.new [Inhabited α] (n : ℕ) : Data α := ⟨List.replicate n default, n, 0, 0⟩

/-- `__space_sem(default_num)` and `__data_sem(0)`. -/
def Sem.value (n : ℕ) : Sem → ℕ
  | .spaceSem => n
  | .dataSem => 0

/-- What is recorded: a value stored or delivered, or an assignment that has
thrown. -/
inductive Event (α : Type*)
  | stored (v : α)
  | delivered (v : α)
  | thrown

/-- Where a thread stands; `todo` are its calls after the current one. -/
inductive Pc (α : Type*)
  | ready (todo : List (Call α))
  | pushLock (v : α) (todo : List (Call α))
  | pushStore (v : α) (todo : List (Call α))
  | pushMod (todo : List (Call α))
  | pushUnlock (todo : List (Call α))
  | pushPost (todo : List (Call α))
  | popLock (todo : List (Call α))
  | popLoad (todo : List (Call α))
  | popMod (todo : List (Call α))
  | popUnlock (todo : List (Call α))
  | popPost (todo : List (Call α))

/-- The places of a thread, those between two calls told apart by the next
call.  The program is a function of these, so a proof about all calls has one
case for each. -/
@[elab_as_elim, cases_eliminator]
theorem Pc.cases {motive : Pc α → Prop} (done : motive (.ready []))
    (callPush : ∀ v todo, motive (.ready (.push v :: todo)))
    (pushLock : ∀ v todo, motive (.pushLock v todo))
    (pushStore : ∀ v todo, motive (.pushStore v todo))
    (pushMod : ∀ todo, motive (.pushMod todo))
    (pushUnlock : ∀ todo, motive (.pushUnlock todo))
    (pushPost : ∀ todo, motive (.pushPost todo))
    (callPop : ∀ todo, motive (.ready (.pop :: todo)))
    (popLock : ∀ todo, motive (.popLock todo))
    (popLoad : ∀ todo, motive (.popLoad todo))
    (popMod : ∀ todo, motive (.popMod todo))
    (popUnlock : ∀ todo, motive (.popUnlock todo))
    (popPost : ∀ todo, motive (.popPost todo)) : ∀ l, motive l
  | .ready [] => done
  | .ready (.push v :: todo) => callPush v todo
  | .ready (.pop :: todo) => callPop todo
  | .pushLock v todo => pushLock v todo
  | .pushStore v todo => pushStore v todo
  | .pushMod todo => pushMod todo
  | .pushUnlock todo => pushUnlock todo
  | .pushPost todo => pushPost todo
  | .popLock todo => popLock todo
  | .popLoad todo => popLoad todo
  | .popMod todo => popMod todo
  | .popUnlock todo => popUnlock todo
  | .popPost todo => popPost todo

/-- What may go wrong around the queue. -/
structure Env where
  /-- `sem_wait` may return `-1` with `EINTR`. -/
  eintr : Bool
  /-- The copy assignment of an element may throw. -/
  throws : Bool

/-- Semaphore operations succeed and copies do not throw. -/
def Env.calm : Env := ⟨false, false⟩

/-- `Sem::p`: `sem_wait`, its result ignored. -/
def Sem.p {T : Type*} (e : Env) (x : Sem) (k : Pc α) :
    Op T Mutex Sem Empty (Data α) (Pc α) Bool (Event α) :=
  .semWait x k (if e.eintr then some k else none)

/-- `Sem::v`: `sem_post`. -/
def Sem.v {T : Type*} (x : Sem) (k : Pc α) :
    Op T Mutex Sem Empty (Data α) (Pc α) Bool (Event α) :=
  .semPost x k

/-- `__ring_queue[__p_step++] = in`.  The environment answers whether the
assignment throws. -/
def store (e : Env) (v : α) (todo : List (Call α)) (throw : Bool) (d : Data α) :
    Option (Outcome (Data α) (Pc α) (Event α)) :=
  if d.pStep < d.ringQueue.length then
    if throw then
      if e.throws then some (.next { d with pStep := d.pStep + 1 } (.ready todo) [.thrown]) else none
    else
      some (.next { d with ringQueue := d.ringQueue.set d.pStep v, pStep := d.pStep + 1 }
        (.pushMod todo) [.stored v])
  else some .undefined

/-- `*out = __ring_queue[__c_step++]`. -/
def load (e : Env) (todo : List (Call α)) (throw : Bool) (d : Data α) :
    Option (Outcome (Data α) (Pc α) (Event α)) :=
  match d.ringQueue[d.cStep]? with
  | some v =>
    if throw then
      if e.throws then some (.next { d with cStep := d.cStep + 1 } (.ready todo) [.thrown]) else none
    else some (.next { d with cStep := d.cStep + 1 } (.popMod todo) [.delivered v])
  | none => some .undefined

/-- `__p_step %= __size`. -/
def modP (todo : List (Call α)) (_ : Bool) (d : Data α) :
    Option (Outcome (Data α) (Pc α) (Event α)) :=
  if d.size = 0 then some .undefined
  else some (.next { d with pStep := d.pStep % d.size } (.pushUnlock todo) [])

/-- `__c_step %= __size`. -/
def modC (todo : List (Call α)) (_ : Bool) (d : Data α) :
    Option (Outcome (Data α) (Pc α) (Event α)) :=
  if d.size = 0 then some .undefined
  else some (.next { d with cStep := d.cStep % d.size } (.popUnlock todo) [])

/-- `push` and `pop`, call by call. -/
def prog {T : Type*} (e : Env) : Pc α → Op T Mutex Sem Empty (Data α) (Pc α) Bool (Event α)
  | .ready [] => .exit
  | .ready (.push v :: todo) => Sem.p e .spaceSem (.pushLock v todo)
  | .pushLock v todo => .lock .pLock (.pushStore v todo)
  | .pushStore v todo => .act (store e v todo)
  | .pushMod todo => .act (modP todo)
  | .pushUnlock todo => .unlock .pLock (.pushPost todo)
  | .pushPost todo => Sem.v .dataSem (.ready todo)
  | .ready (.pop :: todo) => Sem.p e .dataSem (.popLock todo)
  | .popLock todo => .lock .cLock (.popLoad todo)
  | .popLoad todo => .act (load e todo)
  | .popMod todo => .act (modC todo)
  | .popUnlock todo => .unlock .cLock (.popPost todo)
  | .popPost todo => Sem.v .spaceSem (.ready todo)

/-- States of the queue and its threads. -/
abbrev State (T α : Type*) := St T Mutex Sem Empty (Data α) (Pc α) (Event α)

/-- A queue of capacity `n` just constructed, and threads with any calls to
make. -/
structure Init {T : Type*} [Inhabited α] (n : ℕ) (s : State T α) : Prop where
  owner : ∀ m, s.owner m = none
  sem : ∀ x, s.sem x = x.value n
  th : ∀ t, ∃ todo, s.th t = .run (.ready todo)
  data : s.data = .new n
  log : s.log = []

/-- The runs of a queue of capacity `n` under `e`. -/
def sys {T : Type*} [DecidableEq T] [Inhabited α] (e : Env) (n : ℕ) : System (State T α) :=
  system (prog e) (Init n)

/-- The values stored by `push`, in the order of the critical sections. -/
def stored (ev : List (Event α)) : List α :=
  ev.filterMap fun | .stored v => some v | _ => none

/-- The values delivered by `pop`, in the order of the critical sections. -/
def delivered (ev : List (Event α)) : List α :=
  ev.filterMap fun | .delivered v => some v | _ => none

/-- The values stored and not delivered, read off the ring from the consumers'
cursor on. -/
def unread (d : Data α) (k : ℕ) : List (Option α) :=
  (List.range k).map fun i => d.ringQueue[(d.cStep + i) % d.size]?

end RingQueue
end OSNetWorkCode
