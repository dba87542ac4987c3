/-
# Workers on a condition variable, and how they are told to stop

`0113/demo/mycond.cc`.  `main` starts a thread for each entry of `funcs`,
signals `cond` a number of times, sets `quit`, broadcasts on `cond` and joins
the threads in order.  Each thread runs one of `func1` to `func4`, which differ
in what they print: while `quit` is not set, lock, wait, print, unlock.  `quit`
is looked at and set without the mutex, and the broadcast is made without it.

The threads are `main` (`none`) and one for each entry of `funcs`.  Which of
those not yet alive `pthread_create` starts is left open, and with it the order
of the joins.  `sleep` is no step: it only delays the next signal.
-/

import OSNetWorkCode.Pthread.Places
import OSNetWorkCode.Pthread.Quiescence

namespace OSNetWorkCode
namespace MyCond

open Pthread

/-- What a thread is to do. -/
inductive Func
  | func1
  | func2
  | func3
  | func4
  deriving DecidableEq

/-- What it prints behind its name. -/
def Func.running : Func → String
  | .func1 => " A_running..."
  | .func2 => " B_running..."
  | .func3 => " C_running..."
  | .func4 => " D_running..."

/-- `name` and `func` of a `ThreadData`. -/
structure ThreadData where
  name : String
  func : Func
  deriving DecidableEq

/-- The `ThreadData` that `main` makes. -/
def threadData (funcs : List Func) : List ThreadData :=
  funcs.mapIdx fun i func => ⟨"Thread " ++ toString (i + 1), func⟩

/-- The one mutex, `mtx`. -/
inductive Mutex
  | mtx
  deriving DecidableEq

/-- The one condition variable, `cond`. -/
inductive Cond
  | cond
  deriving DecidableEq

/-- The shared data. -/
structure Data where
  quit : Bool

/-- What is printed: a line, or that thread `u` was joined. -/
inductive Event (T : Type*)
  | line (s : String)
  | joined (u : T)

/-- Where a thread stands: `main` at the first seven places, a worker at the
others. -/
inductive Pc (T : Type*)
  /-- At the loop over `pthread_create`, with what is still to be started. -/
  | create (tds : List ThreadData)
  /-- At the loop over `pthread_cond_signal`. -/
  | signal (cnt : ℕ)
  | setQuit
  | broadcast
  /-- At the loop over `pthread_join`, with what is still to be joined. -/
  | join (tids : List T)
  | joined (u : T) (tids : List T)
  | test (td : ThreadData)
  | lock (td : ThreadData)
  | wait (td : ThreadData)
  | print (td : ThreadData)
  | unlock (td : ThreadData)
  | returned

section prog

variable {T : Type*}

/-- Something is printed. -/
def note (ev : List (Event T)) (k : Pc T) (_ : Unit) (d : Data) :
    Option (Outcome Data (Pc T) (Event T)) :=
  some (.next d k ev)

/-- `quit = true`. -/
def setQuit (_ : Unit) (d : Data) : Option (Outcome Data (Pc T) (Event T)) :=
  some (.next { d with quit := true } .broadcast [])

/-- `while (!quit)`. -/
def test (td : ThreadData) (_ : Unit) (d : Data) : Option (Outcome Data (Pc T) (Event T)) :=
  some (.next d (if d.quit then .returned else .lock td) [])

/-- The program, call by call: `cnt` signals are sent, and `tids` is joined. -/
def prog {S : Type*} (cnt : ℕ) (tids : List T) :
    Pc T → Op T Mutex S Cond Data (Pc T) Unit (Event T)
  | .create (td :: tds) => .create (.test td) (.create tds)
  | .create [] => .act (note [.line "new threads generate success",
      .line "main thread begin to control all new threads ..."] (.signal cnt))
  | .signal (n + 1) => .condSignal .cond (.signal n)
  | .signal 0 => .act (note [.line "threads ctrl done!"] .setQuit)
  | .setQuit => .act setQuit
  | .broadcast => .condBroadcast .cond (.join tids)
  | .join (u :: us) => .join u (.joined u us)
  | .join [] => .exit
  | .joined u us => .act (note [.joined u] (.join us))
  | .test td => .act (test td)
  | .lock td => .lock .mtx (.wait td)
  | .wait td => .condWait .cond .mtx (.print td)
  | .print td => .act (note [.line (td.name ++ td.func.running)] (.unlock td))
  | .unlock td => .unlock .mtx (.test td)
  | .returned => .exit

end prog

/-- The threads: `main`, and one for each entry of `funcs`. -/
abbrev Tid (funcs : List Func) := Option (Fin funcs.length)

/-- `tids`. -/
def tids (funcs : List Func) : List (Tid funcs) := (List.finRange funcs.length).map some

/-- States of the program; there are no semaphores. -/
abbrev State (funcs : List Func) :=
  St (Tid funcs) Mutex Empty Cond Data (Pc (Tid funcs)) (Event (Tid funcs))

/-- `main` is at its first loop, and nobody else is alive. -/
def start (funcs : List Func) : State funcs where
  owner _ := none
  sem x := x.elim
  th
    | none => .run (.create (threadData funcs))
    | some _ => .unborn
  data := ⟨false⟩
  log := []

/-- A worker that has found `quit` not set and does not sleep yet. -/
def BetweenTestAndWait {T : Type*} : Status Mutex Cond (Pc T) → Prop
  | .run (.lock _) | .run (.wait _) => True
  | _ => False

/-- `main` broadcasts only when no worker is between its test of `quit` and its
wait. -/
def InTime {funcs : List Func} (s : State funcs) (t : Tid funcs) : Prop :=
  s.th t = .run .broadcast → ∀ u, ¬ BetweenTestAndWait (s.th u)

/-- All runs with `cnt` signals. -/
def runs (funcs : List Func) (cnt : ℕ) : System (State funcs) :=
  system (prog cnt (tids funcs)) fun s => s = start funcs

/-- The runs in which `main` broadcasts in time. -/
def inTime (funcs : List Func) (cnt : ℕ) : System (State funcs) :=
  restricted (prog cnt (tids funcs)) (fun s => s = start funcs) InTime

/-- `main` has set `quit` and broadcast. -/
def Told {funcs : List Func} (s : State funcs) : Prop :=
  (∃ us, s.th none = .run (.join us)) ∨ ∃ u us, s.th none = .run (.joined u us)

/-- All workers have returned, and `main` has joined them. -/
def Stopped {funcs : List Func} (s : State funcs) : Prop :=
  s.th none = .run (.join []) ∧ ∀ i, s.th (some i) = .run .returned

/-! ### What each call does -/

/-- The mutex is held from the lock to the unlock. -/
def holds {T : Type*} : Pc T → Mutex → Prop
  | .wait _, _ | .print _, _ | .unlock _, _ => True
  | _, _ => False

/-- The calls made at each place, listed. -/
inductive Calls {T S : Type*} (cnt : ℕ) (tids : List T) :
    Pc T → Op T Mutex S Cond Data (Pc T) Unit (Event T) → Prop
  | create {td tds} : Calls cnt tids (.create (td :: tds)) (.create (.test td) (.create tds))
  | created {ev} : Calls cnt tids (.create []) (.act (note ev (.signal cnt)))
  | signal {n} : Calls cnt tids (.signal (n + 1)) (.condSignal .cond (.signal n))
  | signalled {ev} : Calls cnt tids (.signal 0) (.act (note ev .setQuit))
  | setQuit : Calls cnt tids .setQuit (.act setQuit)
  | broadcast : Calls cnt tids .broadcast (.condBroadcast .cond (.join tids))
  | join {u us} : Calls cnt tids (.join (u :: us)) (.join u (.joined u us))
  | allJoined : Calls cnt tids (.join []) .exit
  | joined {u us ev} : Calls cnt tids (.joined u us) (.act (note ev (.join us)))
  | test {td} : Calls cnt tids (.test td) (.act (test td))
  | lock {td} : Calls cnt tids (.lock td) (.lock .mtx (.wait td))
  | wait {td} : Calls cnt tids (.wait td) (.condWait .cond .mtx (.print td))
  | print {td ev} : Calls cnt tids (.print td) (.act (note ev (.unlock td)))
  | unlock {td} : Calls cnt tids (.unlock td) (.unlock .mtx (.test td))
  | returned : Calls cnt tids .returned .exit

/-- **Every place makes one of these calls.**  The other modules go by cases on
`Calls`, where each case has its call and the place behind it. -/
theorem calls {T S : Type*} {cnt : ℕ} {tids : List T} {l : Pc T}
    {o : Op T Mutex S Cond Data (Pc T) Unit (Event T)} (h : prog cnt tids l = o) :
    Calls cnt tids l o := by
  subst h
  cases l with
  | create tds =>
    cases tds with
    | nil => exact .created
    | cons td tds => exact .create
  | signal n =>
    cases n with
    | zero => exact .signalled
    | succ n => exact .signal
  | join us =>
    cases us with
    | nil => exact .allJoined
    | cons u us => exact .join
  | _ => constructor

end MyCond
end OSNetWorkCode
