/-
# Threads that sell tickets

`0112/mythread1.cc`.  `main` starts threads on `getTickets` and joins them in
order.  A thread locks the mutex they share, looks whether there are tickets
left, prints the number of one and takes it off, and unlocks; where none are
left it unlocks on another branch and leaves the loop.  It sleeps between the
test and the print, inside the critical section, so another thread can move
there but not come in.

The threads are `main` (`none`) and any number of others.  Which of those not
yet alive `pthread_create` starts is left open, and with it the order of the
joins.  Sleeping, drawing random numbers and `delete td` are no steps.

`getTickets` is to return a `void *`, but there is no `return` behind its loop.
A thread that has left the loop flows off the end of the function, and what
happens then C++ leaves undefined.  So the step at that place is an undefined
one (`fallsOff`), and no thread ever returns.
-/

import OSNetWorkCode.Pthread.Locks

namespace OSNetWorkCode
namespace Tickets

open Pthread

/-- The mutex that `main` makes and hands to all threads. -/
inductive Mutex
  | mtx
  deriving DecidableEq

/-- The shared data. -/
structure Data where
  tickets : ℤ

/-- Where a thread stands: `main` at the first two places, a seller at the
others. -/
inductive Pc (T : Type*)
  /-- At the loop over `pthread_create`, with how many threads are still to be started. -/
  | create (i : ℕ)
  /-- At the loop over `pthread_join`, with what is still to be joined. -/
  | join (t : List T)
  | lock
  | test
  | print
  | decrement
  | unlock
  /-- At the unlock before the `break`. -/
  | unlockBreak
  /-- Behind the loop, at the end of `getTickets`. -/
  | bodyEnd

section prog

variable {T : Type*}

/-- The first loop of `main` is over. -/
def created (t : List T) (_ : Unit) (d : Data) : Option (Outcome Data (Pc T) ℤ) :=
  some (.next d (.join t) [])

/-- `if (tickets > 0)`. -/
def test (_ : Unit) (d : Data) : Option (Outcome Data (Pc T) ℤ) :=
  some (.next d (if d.tickets > 0 then .print else .unlockBreak) [])

/-- `printf("%p: %d\n", pthread_self(), tickets)`: the number is recorded, with
the thread. -/
def print (_ : Unit) (d : Data) : Option (Outcome Data (Pc T) ℤ) :=
  some (.next d .decrement [d.tickets])

/-- `tickets--`. -/
def decrement (_ : Unit) (d : Data) : Option (Outcome Data (Pc T) ℤ) :=
  some (.next ⟨d.tickets - 1⟩ .unlock [])

/-- The end of a function that has a value to return, and no `return` there. -/
def fallsOff (_ : Unit) (_ : Data) : Option (Outcome Data (Pc T) ℤ) := some .undefined

/-- The program, call by call: `t` is joined. -/
def prog {S C : Type*} (t : List T) : Pc T → Op T Mutex S C Data (Pc T) Unit ℤ
  | .create (i + 1) => .create .lock (.create i)
  | .create 0 => .act (created t)
  | .join (u :: us) => .join u (.join us)
  | .join [] => .exit
  | .lock => .lock .mtx .test
  | .test => .act test
  | .print => .act print
  | .decrement => .act decrement
  | .unlock => .unlock .mtx .lock
  | .unlockBreak => .unlock .mtx .bodyEnd
  | .bodyEnd => .act fallsOff

end prog

/-- The threads: `main` and `n` others. -/
abbrev Tid (n : ℕ) := Option (Fin n)

/-- `t`. -/
def tids (n : ℕ) : List (Tid n) := (List.finRange n).map some

/-- States of the program; there are no semaphores and no condition
variables. -/
abbrev State (n : ℕ) := St (Tid n) Mutex Empty Empty Data (Pc (Tid n)) ℤ

/-- `main` is at its first loop, nobody else is alive, and no ticket is
sold. -/
def start (tickets n : ℕ) : State n where
  owner _ := none
  sem x := x.elim
  th
    | none => .run (.create n)
    | some _ => .unborn
  data := ⟨tickets⟩
  log := []

/-- All runs of `n` threads that sell so many tickets. -/
def runs (tickets n : ℕ) : System (State n) :=
  system (prog (tids n)) fun s => s = start tickets n

/-- The numbers on the tickets in the order of their sale: `n`, `n - 1`, ...,
`1`. -/
def numbers : ℕ → List ℤ
  | 0 => []
  | n + 1 => (n + 1 : ℕ) :: numbers n

/-- A thread has returned: it stands where its function is over. -/
def Returned {n : ℕ} (s : State n) (t : Tid n) : Prop :=
  ∃ l, s.th t = .run l ∧ prog (S := Empty) (C := Empty) (tids n) l = .exit

/-- All threads have returned, `main` among them, the mutex is free, and all
tickets are sold. -/
structure SoldOut {n : ℕ} (tickets : ℕ) (s : State n) : Prop where
  returned : ∀ t, Returned s t
  free : s.owner .mtx = none
  sold : s.events = numbers tickets

/-- All tickets are sold and the mutex is free, but every seller stands at the
end of `getTickets`, which has no `return`, and `main` still has to join all of
them. -/
structure Stranded {n : ℕ} (tickets : ℕ) (s : State n) : Prop where
  main : s.th none = .run (.join (tids n))
  bodyEnd : ∀ i, s.th (some i) = .run .bodyEnd
  free : s.owner .mtx = none
  sold : s.events = numbers tickets

/-- Who looks at the count does so while there is a ticket left. -/
def WhileLeft {n : ℕ} (s : State n) (t : Tid n) : Prop :=
  s.th t = .run .test → 0 < s.data.tickets

/-- The runs in which nobody finds the tickets sold out. -/
def unsold (tickets n : ℕ) : System (State n) :=
  restricted (prog (tids n)) (fun s => s = start tickets n) WhileLeft

/-! ### What each call does -/

/-- The mutex is held from the lock to either unlock. -/
def holds {T : Type*} : Pc T → Mutex → Prop
  | .test, _ | .print, _ | .decrement, _ | .unlock, _ | .unlockBreak, _ => True
  | _, _ => False

/-- The calls made at each place, listed. -/
inductive Calls {T S C : Type*} (t : List T) : Pc T → Op T Mutex S C Data (Pc T) Unit ℤ → Prop
  | create {i} : Calls t (.create (i + 1)) (.create .lock (.create i))
  | created : Calls t (.create 0) (.act (created t))
  | join {u us} : Calls t (.join (u :: us)) (.join u (.join us))
  | joined : Calls t (.join []) .exit
  | lock : Calls t .lock (.lock .mtx .test)
  | test : Calls t .test (.act test)
  | print : Calls t .print (.act print)
  | decrement : Calls t .decrement (.act decrement)
  | unlock : Calls t .unlock (.unlock .mtx .lock)
  | unlockBreak : Calls t .unlockBreak (.unlock .mtx .bodyEnd)
  | bodyEnd : Calls t .bodyEnd (.act fallsOff)

/-- **Every place makes one of these calls.**  The other modules go by cases on
`Calls`, where each case has its call and the place behind it. -/
theorem calls {T S C : Type*} {t : List T} {l : Pc T} {o : Op T Mutex S C Data (Pc T) Unit ℤ}
    (h : prog t l = o) : Calls t l o := by
  subst h
  cases l with
  | create i =>
    cases i with
    | zero => exact .created
    | succ i => exact .create
  | join us =>
    cases us with
    | nil => exact .joined
    | cons u us => exact .join
  | _ => constructor

/-- Where a call at a place may return to. -/
inductive Next {T : Type*} (t : List T) : Pc T → Pc T → Prop
  | create {i} : Next t (.create (i + 1)) (.create i)
  | created : Next t (.create 0) (.join t)
  | join {u us} : Next t (.join (u :: us)) (.join us)
  | lock : Next t .lock .test
  | left : Next t .test .print
  | soldOut : Next t .test .unlockBreak
  | print : Next t .print .decrement
  | decrement : Next t .decrement .unlock
  | unlock : Next t .unlock .lock
  | unlockBreak : Next t .unlockBreak .bodyEnd

/-- **Every call leads to one of these places.**  So sets of places that are
closed, or entered in one way only, are checked rule by rule. -/
theorem next_of_leads {T S C : Type*} {t : List T} {l k : Pc T}
    (hk : (prog (S := S) (C := C) t l).Leads k) : Next t l k := by
  generalize hop : prog (S := S) (C := C) t l = o at hk
  cases calls hop with
  | created | print | decrement =>
    obtain ⟨i, d, d', ev, hf⟩ := hk
    cases hf
    constructor
  | test =>
    obtain ⟨i, d, d', ev, hf⟩ := hk
    cases hf
    split_ifs
    · exact .left
    · exact .soldOut
  | bodyEnd =>
    obtain ⟨i, d, d', ev, hf⟩ := hk
    cases hf
  | joined => exact hk.elim
  | _ =>
    cases hk
    constructor

end Tickets
end OSNetWorkCode
