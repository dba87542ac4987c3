/-
# Who owns the thread pool

`0215/tcp/tcp_server.hpp` and `0215/tcp/threadPool/threadPool.hpp`, seen from
the life of the pool.  `getThreadPool` creates one pool, keeps its address in
`thread_ptr` and never resets it.  Every `TcpServer` holds that address in a
`unique_ptr`, so that the destruction of a server destroys the pool:
`~ThreadPool` deletes its `Thread` objects one after another, then the pool is
gone.  The workers that `run()` starts have a raw pointer to their `Thread`
object, and through it one to the pool.

Any number of threads construct servers, start them, destroy them and call
`getThreadPool`; one such call is a request of the caller, who may be
restricted (`ok`).  `start` never returns: it runs the pool and then accepts
connections and pushes their tasks.  A server is used only while it exists.
Memory that was given back still reads as it did, so that a run can be followed
to the access that should not be there.
-/

import OSNetWorkCode.Singleton.Instances

namespace OSNetWorkCode
namespace Ownership

open Pthread

variable {T : Type*}

/-- A pool: its `Thread` objects and how many tasks are queued. -/
structure Pool where
  threads : List ThreadPool.Thread
  tasks : ℕ

/-- A `TcpServer`: what `__threadPool_ptr` holds, and what happened to the
server. -/
structure Server where
  pool : ℕ
  started : Bool
  destroyed : Bool

/-- `thread_ptr`, the pools by address, and the servers constructed. -/
structure Data where
  threadPtr : Option ℕ
  pools : List Pool
  servers : List Server

/-- What the code around the servers asks for. -/
inductive Request
  | construct
  | getThreadPool (num : ℤ)
  | start (server : ℕ)
  | destroy (server : ℕ)

/-- The answers of the environment. -/
inductive Input
  | request (r : Request)
  /-- `accept` returned a connection, or failed. -/
  | accept (connected : Bool)
  | step

/-- What the accesses report about the life of the pools, in the order in which
it happened. -/
inductive Event
  /-- `getThreadPool` returned this pool. -/
  | returned (pool : ℕ)
  /-- A `Thread` object of a pool was deleted. -/
  | deleted (pool i : ℕ)
  /-- `~ThreadPool` was run to its end. -/
  | destroyed (pool : ℕ)

/-- Where a thread stands.  A worker knows its `Thread` object by pool and
number; `tp` is the pool it works for. -/
inductive Pc
  | main
  /-- In the loop of `run()`, `Thread` object `i` next and `n` still to start. -/
  | run (pool i n : ℕ)
  | accept (pool : ℕ)
  | pushLock (pool : ℕ)
  | pushPush (pool : ℕ)
  | pushSignal (pool : ℕ)
  | pushUnlock (pool : ℕ)
  /-- In the loop of `~ThreadPool`, `Thread` object `i` next and `n` still to delete. -/
  | delete (pool i n : ℕ)
  | routine (td : ℕ × ℕ)
  | routineLock (td : ℕ × ℕ) (tp : ℕ)
  | routineTest (td : ℕ × ℕ) (tp : ℕ)
  | routineWait (td : ℕ × ℕ) (tp : ℕ)
  | routineGet (td : ℕ × ℕ) (tp : ℕ)
  | routineUnlock (td : ℕ × ℕ) (tp : ℕ)
  | routineCall (td : ℕ × ℕ) (tp : ℕ)

/-- `getThreadPool(num)`: the pool returned, and the data after it. -/
def getThreadPool (num : ℤ) (d : Data) : ℕ × Data :=
  match d.threadPtr with
  | some p => (p, d)
  | none => (d.pools.length,
    { d with
      threadPtr := some d.pools.length
      pools := d.pools ++ [⟨ThreadPool.threads num.toNat d.pools.length, 0⟩] })

/-- The `Thread` objects of a pool. -/
def Data.threads (d : Data) (pool : ℕ) : List ThreadPool.Thread :=
  (d.pools[pool]?.map Pool.threads).getD []

/-- The pool at an address is changed. -/
def Data.onPool (d : Data) (pool : ℕ) (f : Pool → Pool) : Data :=
  { d with pools := d.pools.modify pool f }

/-- The server with a number is changed. -/
def Data.onServer (d : Data) (server : ℕ) (f : Server → Server) : Data :=
  { d with servers := d.servers.modify server f }

/-- `TcpServer(port)`, with the default number of threads. -/
def construct (d : Data) : Outcome Data Pc Event :=
  let (p, d') := getThreadPool ThreadPool.gThreadNum d
  .next { d' with servers := d'.servers ++ [⟨p, false, false⟩] } .main [.returned p]

/-- `ThreadPool<Task>::getThreadPool(num)`. -/
def callGetThreadPool (num : ℤ) (d : Data) : Outcome Data Pc Event :=
  let (p, d') := getThreadPool num d
  .next d' .main [.returned p]

/-- `start()` enters `__threadPool_ptr->run()`. -/
def start (server : ℕ) (d : Data) : Option (Outcome Data Pc Event) :=
  match d.servers[server]? with
  | some sv =>
    if sv.destroyed then none
    else some (.next (d.onServer server fun sv => { sv with started := true })
      (.run sv.pool 0 (d.threads sv.pool).length) [])
  | none => none

/-- `~TcpServer()` destroys `__threadPool_ptr`, which enters
`~ThreadPool()`. -/
def destroy (server : ℕ) (d : Data) : Option (Outcome Data Pc Event) :=
  match d.servers[server]? with
  | some sv =>
    if sv.destroyed then none
    else some (.next (d.onServer server fun sv => { sv with destroyed := true })
      (.delete sv.pool 0 (d.threads sv.pool).length) [])
  | none => none

/-- A request that the caller may make. -/
def request (ok : Data → Request → Bool) (i : Input) (d : Data) : Option (Outcome Data Pc Event) :=
  match i with
  | .request r =>
    if ok d r then
      match r with
      | .construct => some (construct d)
      | .getThreadPool num => some (callGetThreadPool num d)
      | .start server => start server d
      | .destroy server => destroy server d
    else none
  | _ => none

/-- The loop of `run()` is over. -/
def runEnd (pool : ℕ) (_ : Input) (d : Data) : Option (Outcome Data Pc Event) :=
  some (.next d (.accept pool) [])

/-- `accept`; a failure is logged and tried again. -/
def accept (pool : ℕ) (i : Input) (d : Data) : Option (Outcome Data Pc Event) :=
  match i with
  | .accept connected => some (.next d (if connected then .pushLock pool else .accept pool) [])
  | _ => none

/-- `__task_queue.push(task)`. -/
def push (pool : ℕ) (_ : Input) (d : Data) : Option (Outcome Data Pc Event) :=
  some (.next (d.onPool pool fun x => { x with tasks := x.tasks + 1 }) (.pushSignal pool) [])

/-- `delete iter`. -/
def deleteThread (pool i n : ℕ) (_ : Input) (d : Data) : Option (Outcome Data Pc Event) :=
  some (.next d (.delete pool (i + 1) n) [.deleted pool i])

/-- `~ThreadPool` ends. -/
def deleteEnd (pool : ℕ) (_ : Input) (d : Data) : Option (Outcome Data Pc Event) :=
  some (.next d .main [.destroyed pool])

/-- `tp = td->__args`. -/
def args (td : ℕ × ℕ) (_ : Input) (d : Data) : Option (Outcome Data Pc Event) :=
  match (d.threads td.1)[td.2]? with
  | some thread => some (.next d (.routineLock td thread.args) [])
  | none => some .undefined

/-- `while (tp->isEmpty())`. -/
def test (td : ℕ × ℕ) (tp : ℕ) (_ : Input) (d : Data) : Option (Outcome Data Pc Event) :=
  match d.pools[tp]? with
  | some pool =>
    some (.next d (if pool.tasks = 0 then .routineWait td tp else .routineGet td tp) [])
  | none => some .undefined

/-- `task = tp->getTask()`. -/
def getTask (td : ℕ × ℕ) (tp : ℕ) (_ : Input) (d : Data) : Option (Outcome Data Pc Event) :=
  some (.next (d.onPool tp fun x => { x with tasks := x.tasks - 1 }) (.routineUnlock td tp) [])

/-- `task(td->__name)` runs and returns. -/
def callTask (td : ℕ × ℕ) (tp : ℕ) (_ : Input) (d : Data) : Option (Outcome Data Pc Event) :=
  some (.next d (.routineLock td tp) [])

/-- The servers, the pool and the code around them, call by call; each pool has
its `__lock` and its `__cond`. -/
def prog (ok : Data → Request → Bool) : Pc → Op T ℕ Empty ℕ Data Pc Input Event
  | .main => .act (request ok)
  | .run pool _ 0 => .act (runEnd pool)
  | .run pool i (n + 1) => .create (.routine (pool, i)) (.run pool (i + 1) n)
  | .accept pool => .act (accept pool)
  | .pushLock pool => .lock pool (.pushPush pool)
  | .pushPush pool => .act (push pool)
  | .pushSignal pool => .condSignal pool (.pushUnlock pool)
  | .pushUnlock pool => .unlock pool (.accept pool)
  | .delete pool _ 0 => .act (deleteEnd pool)
  | .delete pool i (n + 1) => .act (deleteThread pool i n)
  | .routine td => .act (args td)
  | .routineLock td tp => .lock tp (.routineTest td tp)
  | .routineTest td tp => .act (test td tp)
  | .routineWait td tp => .condWait tp tp (.routineTest td tp)
  | .routineGet td tp => .act (getTask td tp)
  | .routineUnlock td tp => .unlock tp (.routineCall td tp)
  | .routineCall td tp => .act (callTask td tp)

/-- States of the threads around the servers and the pool. -/
abbrev State (T : Type*) := St T ℕ Empty ℕ Data Pc Event

/-- No pool and no server yet; some threads are there to make requests. -/
structure Init (s : State T) : Prop where
  owner : ∀ m, s.owner m = none
  th : ∀ t, s.th t = .unborn ∨ s.th t = .run .main
  data : s.data = ⟨none, [], []⟩
  log : s.log = []

/-- The runs in which the callers make the requests that `ok` admits. -/
def sys [DecidableEq T] (ok : Data → Request → Bool) : System (State T) :=
  system (prog ok) Init

/-- The pools that `getThreadPool` returned. -/
def returned (ev : List Event) : List ℕ :=
  ev.filterMap fun | .returned p => some p | _ => none

/-- The `Thread` objects deleted. -/
def deleted (ev : List Event) : List (ℕ × ℕ) :=
  ev.filterMap fun | .deleted p i => some (p, i) | _ => none

/-- The pools destroyed. -/
def destroyed (ev : List Event) : List ℕ :=
  ev.filterMap fun | .destroyed p => some p | _ => none

/-- The pool that the next step of a worker works on. -/
def onPool : Pc → Option ℕ
  | .routineLock _ tp | .routineTest _ tp | .routineWait _ tp | .routineGet _ tp
  | .routineUnlock _ tp => some tp
  | _ => none

/-- The `Thread` object that the next step of a worker works on. -/
def onThread : Pc → Option (ℕ × ℕ)
  | .routine td | .routineCall td _ => some td
  | _ => none

/-! The three projections read the events one by one, so that each case of a
step is settled by `simp`. -/

section simp

variable (ev ev' : List Event) (p i : ℕ)

@[simp] theorem returned_append : returned (ev ++ ev') = returned ev ++ returned ev' :=
  List.filterMap_append ..

@[simp] theorem deleted_append : deleted (ev ++ ev') = deleted ev ++ deleted ev' :=
  List.filterMap_append ..

@[simp] theorem destroyed_append : destroyed (ev ++ ev') = destroyed ev ++ destroyed ev' :=
  List.filterMap_append ..

@[simp] theorem returned_nil : returned [] = [] := rfl
@[simp] theorem deleted_nil : deleted [] = [] := rfl
@[simp] theorem destroyed_nil : destroyed [] = [] := rfl
@[simp] theorem returned_returned : returned [.returned p] = [p] := rfl
@[simp] theorem returned_deleted : returned [.deleted p i] = [] := rfl
@[simp] theorem returned_destroyed : returned [.destroyed p] = [] := rfl
@[simp] theorem deleted_returned : deleted [.returned p] = [] := rfl
@[simp] theorem deleted_deleted : deleted [.deleted p i] = [(p, i)] := rfl
@[simp] theorem deleted_destroyed : deleted [.destroyed p] = [] := rfl
@[simp] theorem destroyed_returned : destroyed [.returned p] = [] := rfl
@[simp] theorem destroyed_deleted : destroyed [.deleted p i] = [] := rfl
@[simp] theorem destroyed_destroyed : destroyed [.destroyed p] = [p] := rfl

end simp

/-! ### What each access does -/

section next

variable {ok : Data → Request → Bool} {i : Input} {d d' : Data} {l : Pc} {ev : List Event}

/-- What a request comes to, with the pool that it returns or works on. -/
inductive Requested (ok : Data → Request → Bool) (d : Data) : Data → Pc → List Event → Prop
  | construct {p d'} (hok : ok d .construct = true)
      (hp : getThreadPool ThreadPool.gThreadNum d = (p, d')) :
      Requested ok d { d' with servers := d'.servers ++ [⟨p, false, false⟩] } .main [.returned p]
  | getThreadPool {num p d'} (hok : ok d (.getThreadPool num) = true)
      (hp : getThreadPool num d = (p, d')) : Requested ok d d' .main [.returned p]
  | start {server sv} (hok : ok d (.start server) = true) (hsv : d.servers[server]? = some sv)
      (halive : sv.destroyed = false) :
      Requested ok d (d.onServer server fun sv => { sv with started := true })
        (.run sv.pool 0 (d.threads sv.pool).length) []
  | destroy {server sv} (hok : ok d (.destroy server) = true)
      (hsv : d.servers[server]? = some sv) (halive : sv.destroyed = false) :
      Requested ok d (d.onServer server fun sv => { sv with destroyed := true })
        (.delete sv.pool 0 (d.threads sv.pool).length) []

/-- **A request does what `Requested` says of it.**  Everything that is proved
of `main` uses this and not `request`. -/
theorem request_next (h : request ok i d = some (.next d' l ev)) : Requested ok d d' l ev := by
  unfold request at h
  split at h
  · rename_i r
    split_ifs at h with hok
    cases r with
    | construct =>
      obtain ⟨rfl, rfl, rfl⟩ := Outcome.next.inj (Option.some.inj h)
      exact .construct hok rfl
    | getThreadPool num =>
      obtain ⟨rfl, rfl, rfl⟩ := Outcome.next.inj (Option.some.inj h)
      exact .getThreadPool hok rfl
    | start server =>
      simp only [start] at h
      split at h
      · rename_i sv hsv
        split_ifs at h with halive
        obtain ⟨rfl, rfl, rfl⟩ := Outcome.next.inj (Option.some.inj h)
        exact .start hok hsv (by simpa using halive)
      · cases h
    | destroy server =>
      simp only [destroy] at h
      split at h
      · rename_i sv hsv
        split_ifs at h with halive
        obtain ⟨rfl, rfl, rfl⟩ := Outcome.next.inj (Option.some.inj h)
        exact .destroy hok hsv (by simpa using halive)
      · cases h
  · cases h

/-- The end of the loop of `run()` leads to `accept`, and changes nothing. -/
theorem runEnd_next {pool} (h : runEnd pool i d = some (.next d' l ev)) :
    d' = d ∧ l = .accept pool ∧ ev = [] := by
  obtain ⟨rfl, rfl, rfl⟩ := Outcome.next.inj (Option.some.inj h)
  exact ⟨rfl, rfl, rfl⟩

/-- `accept` changes nothing here: the connection is in the task that is pushed
afterwards. -/
theorem accept_next {pool} (h : accept pool i d = some (.next d' l ev)) :
    d' = d ∧ (l = .pushLock pool ∨ l = .accept pool) ∧ ev = [] := by
  unfold accept at h
  split at h
  · rename_i connected
    obtain ⟨rfl, rfl, rfl⟩ := Outcome.next.inj (Option.some.inj h)
    cases connected with
    | true => exact ⟨rfl, .inl rfl, rfl⟩
    | false => exact ⟨rfl, .inr rfl, rfl⟩
  · cases h

/-- `push` makes one task more of it, and does not touch the `Thread`
objects. -/
theorem push_next {pool} (h : push pool i d = some (.next d' l ev)) :
    d' = d.onPool pool (fun x => { x with tasks := x.tasks + 1 }) ∧ l = .pushSignal pool ∧
      ev = [] := by
  obtain ⟨rfl, rfl, rfl⟩ := Outcome.next.inj (Option.some.inj h)
  exact ⟨rfl, rfl, rfl⟩

/-- `delete iter` reports the object, and goes on to the next one.  The data
keep it, as memory that was given back still reads as before. -/
theorem deleteThread_next {pool j n} (h : deleteThread pool j n i d = some (.next d' l ev)) :
    d' = d ∧ l = .delete pool (j + 1) n ∧ ev = [.deleted pool j] := by
  obtain ⟨rfl, rfl, rfl⟩ := Outcome.next.inj (Option.some.inj h)
  exact ⟨rfl, rfl, rfl⟩

/-- At the end of `~ThreadPool` the pool is reported as destroyed.
`thread_ptr` is not reset. -/
theorem deleteEnd_next {pool} (h : deleteEnd pool i d = some (.next d' l ev)) :
    d' = d ∧ l = .main ∧ ev = [.destroyed pool] := by
  obtain ⟨rfl, rfl, rfl⟩ := Outcome.next.inj (Option.some.inj h)
  exact ⟨rfl, rfl, rfl⟩

/-- `td->__args` is read and nothing else; which pool it names is not of
interest here. -/
theorem args_next {td} (h : args td i d = some (.next d' l ev)) :
    d' = d ∧ (∃ tp, l = .routineLock td tp) ∧ ev = [] := by
  unfold args at h
  split at h
  · rename_i thread _
    obtain ⟨rfl, rfl, rfl⟩ := Outcome.next.inj (Option.some.inj h)
    exact ⟨rfl, ⟨_, rfl⟩, rfl⟩
  · cases h

/-- `isEmpty()` reads the number of tasks, and the worker waits or takes a
task. -/
theorem test_next {td tp} (h : test td tp i d = some (.next d' l ev)) :
    d' = d ∧ (l = .routineWait td tp ∨ l = .routineGet td tp) ∧ ev = [] := by
  unfold test at h
  split at h
  · obtain ⟨rfl, rfl, rfl⟩ := Outcome.next.inj (Option.some.inj h)
    refine ⟨rfl, ?_, rfl⟩
    split_ifs
    · exact .inl rfl
    · exact .inr rfl
  · cases h

/-- `getTask` makes one task less of it. -/
theorem getTask_next {td tp} (h : getTask td tp i d = some (.next d' l ev)) :
    d' = d.onPool tp (fun x => { x with tasks := x.tasks - 1 }) ∧ l = .routineUnlock td tp ∧
      ev = [] := by
  obtain ⟨rfl, rfl, rfl⟩ := Outcome.next.inj (Option.some.inj h)
  exact ⟨rfl, rfl, rfl⟩

/-- A task touches neither the servers nor the pools. -/
theorem callTask_next {td tp} (h : callTask td tp i d = some (.next d' l ev)) :
    d' = d ∧ l = .routineLock td tp ∧ ev = [] := by
  obtain ⟨rfl, rfl, rfl⟩ := Outcome.next.inj (Option.some.inj h)
  exact ⟨rfl, rfl, rfl⟩

end next

end Ownership
end OSNetWorkCode
