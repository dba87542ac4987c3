/-
# Threads, mutexes, condition variables and semaphores

The interleaving semantics of a program written against POSIX threads.  A
program maps each control point (`Local`: where a thread stands and what its
local variables hold) to the one call it makes there (`Op`); a state holds who
owns each mutex, the value of each semaphore, what every thread is doing, the
shared data, and the events recorded so far.

`Step` is one atomic step of one thread.

* `pthread_mutex_lock` waits for a free mutex; `pthread_mutex_unlock` is given by
  its owner.
* `pthread_cond_wait` gives the mutex back and falls asleep in one step; a sleeper
  whose wake-up was delivered (`Status.woken`) has to take the mutex again before
  it goes on, and any other thread may take it first (Mesa semantics).
* `pthread_cond_signal` wakes some of the sleepers, at least one if there is one;
  `pthread_cond_broadcast` wakes all of them.
* `sem_wait` takes a permit or, where the program says what it does then, returns
  interrupted without one; `sem_post` gives one.

`Wake` is a spurious wake-up: the one thing that happens to a thread without a
step of its own.  `exec` runs one step along a given choice, so that a schedule
written down as a list can be replayed.
-/

import Mathlib.Data.Finset.Basic
import Mathlib.Data.Fintype.Basic
import Mathlib.Logic.Function.Basic
import OSNetWorkCode.Lib.Transition

namespace OSNetWorkCode
namespace Pthread

open Function

/-- What an access to shared data comes to: new data, the next control point
and the events to record, or behaviour the language leaves undefined. -/
inductive Outcome (D L E : Type*)
  | next (d : D) (k : L) (ev : List E)
  | undefined

/-- The call a thread makes at a control point, with the control point after
it.  `T` threads, `M` mutexes, `S` semaphores, `C` condition variables, `D`
shared data, `L` control points, `I` answers of the environment, `E` events. -/
inductive Op (T M S C D L I E : Type*)
  | lock (m : M) (k : L)
  | unlock (m : M) (k : L)
  | condWait (c : C) (m : M) (k : L)
  | condSignal (c : C) (k : L)
  | condBroadcast (c : C) (k : L)
  /-- `sem_wait`; `intr` is where the program goes on after `EINTR`, if that can happen. -/
  | semWait (x : S) (k : L) (intr : Option L)
  | semPost (x : S) (k : L)
  /-- `pthread_create`: some thread not yet alive begins at `start`. -/
  | create (start k : L)
  | join (u : T) (k : L)
  /-- An atomic access to the shared data, under an answer of the environment; `none` where
  the environment cannot answer so. -/
  | act (f : I → D → Option (Outcome D L E))
  | exit

/-- What a thread is doing. -/
inductive Status (M C L : Type*)
  | unborn
  | run (l : L)
  | waiting (c : C) (m : M) (k : L)
  | woken (m : M) (k : L)

/-- A state of the program. -/
structure St (T M S C D L E : Type*) where
  owner : M → Option T
  sem : S → ℕ
  th : T → Status M C L
  data : D
  log : List (T × E)

variable {T M S C D L I E : Type*}

/-- Asleep on `c`. -/
def Status.WaitsOn (c : C) : Status M C L → Prop
  | .waiting c' _ _ => c' = c
  | _ => False

/-- Asleep on some condition variable, no wake-up pending. -/
def Status.Asleep : Status M C L → Prop
  | .waiting .. => True
  | _ => False

/-- A delivered wake-up. -/
def Status.wakeUp : Status M C L → Status M C L
  | .waiting _ m k => .woken m k
  | st => st

/-- Whether a thread is asleep on `c` can be read off its status, so that a
replayed signal finds the sleepers it may wake. -/
instance [DecidableEq C] (c : C) : DecidablePred (Status.WaitsOn (M := M) (L := L) c)
  | .waiting c' _ _ => inferInstanceAs (Decidable (c' = c))
  | .unborn => inferInstanceAs (Decidable False)
  | .run _ => inferInstanceAs (Decidable False)
  | .woken .. => inferInstanceAs (Decidable False)

namespace St

/-- Thread `t` in status `st`. -/
def put [DecidableEq T] (s : St T M S C D L E) (t : T) (st : Status M C L) : St T M S C D L E :=
  { s with th := update s.th t st }

/-- Mutex `m` owned by `o`. -/
def setOwner [DecidableEq M] (s : St T M S C D L E) (m : M) (o : Option T) :
    St T M S C D L E :=
  { s with owner := update s.owner m o }

/-- Semaphore `x` at value `v`. -/
def setSem [DecidableEq S] (s : St T M S C D L E) (x : S) (v : ℕ) : St T M S C D L E :=
  { s with sem := update s.sem x v }

/-- The sleepers of `ws` woken. -/
def wake [DecidableEq T] (s : St T M S C D L E) (ws : Finset T) : St T M S C D L E :=
  { s with th := fun w => if w ∈ ws then (s.th w).wakeUp else s.th w }

/-- Thread `t` left the data `d` behind and recorded `ev`. -/
def record (s : St T M S C D L E) (t : T) (d : D) (ev : List E) : St T M S C D L E :=
  { s with data := d, log := s.log ++ ev.map fun e => (t, e) }

/-- The events recorded, oldest first. -/
def events (s : St T M S C D L E) : List E := s.log.map Prod.snd

/-- The events recorded by `t`, oldest first. -/
def eventsOf [DecidableEq T] (s : St T M S C D L E) (t : T) : List E :=
  (s.log.filter fun p => p.1 = t).map Prod.snd

/-! ### What each update leaves alone

A state is changed by five operations, and each of them changes one part of it: `record` the data
and the events, `put` and `wake` what threads are doing, `setOwner` the mutexes and `setSem` the
semaphores.  The lemmas say so component by component, so that later proofs never unfold an
operation.  First `record`. -/

section simp

variable (s : St T M S C D L E) (t : T) (d : D) (ev : List E)

@[simp] theorem record_owner : (s.record t d ev).owner = s.owner := rfl
@[simp] theorem record_sem : (s.record t d ev).sem = s.sem := rfl
@[simp] theorem record_th : (s.record t d ev).th = s.th := rfl
@[simp] theorem record_data : (s.record t d ev).data = d := rfl
@[simp] theorem record_log : (s.record t d ev).log = s.log ++ ev.map fun e => (t, e) := rfl

/-- What is recorded comes behind what was recorded before: the events are a
history and nothing of it is taken back. -/
@[simp] theorem record_events : (s.record t d ev).events = s.events ++ ev := by
  simp [events, Function.comp_def]

end simp

/-! Moving a thread and waking sleepers leave the mutexes, the semaphores, the
data and the events. -/

section simp

variable [DecidableEq T] (s : St T M S C D L E) (t : T) (st : Status M C L) (ws : Finset T)

@[simp] theorem put_owner : (s.put t st).owner = s.owner := rfl
@[simp] theorem put_sem : (s.put t st).sem = s.sem := rfl
@[simp] theorem put_th : (s.put t st).th = update s.th t st := rfl
@[simp] theorem put_data : (s.put t st).data = s.data := rfl
@[simp] theorem put_log : (s.put t st).log = s.log := rfl
@[simp] theorem wake_owner : (s.wake ws).owner = s.owner := rfl
@[simp] theorem wake_sem : (s.wake ws).sem = s.sem := rfl
@[simp] theorem wake_data : (s.wake ws).data = s.data := rfl
@[simp] theorem wake_log : (s.wake ws).log = s.log := rfl
@[simp] theorem put_events : (s.put t st).events = s.events := rfl
@[simp] theorem wake_events : (s.wake ws).events = s.events := rfl
@[simp] theorem put_eventsOf (u : T) : (s.put t st).eventsOf u = s.eventsOf u := rfl
@[simp] theorem wake_eventsOf (u : T) : (s.wake ws).eventsOf u = s.eventsOf u := rfl

/-- The events of a thread grow by what it records itself, and by nothing that
another thread does. -/
@[simp] theorem record_eventsOf (d : D) (ev : List E) (u : T) :
    (s.record t d ev).eventsOf u = s.eventsOf u ++ if t = u then ev else [] := by
  by_cases h : t = u <;> simp [eventsOf, List.filter_map, Function.comp_def, h]

/-- Waking changes the status of the sleepers named and of no other thread. -/
theorem wake_th (w : T) :
    (s.wake ws).th w = if w ∈ ws then (s.th w).wakeUp else s.th w := rfl

/-- Waking sleepers leaves a thread that runs where it is.  In particular the
thread that signals is not moved by its own signal. -/
theorem wake_th_run {l : L} (h : s.th t = .run l) : (s.wake ws).th t = .run l := by
  rw [wake_th, h]
  split_ifs <;> rfl

end simp

/-! Handing over a mutex leaves everything but who owns it. -/

section simp

variable [DecidableEq M] (s : St T M S C D L E) (m : M) (o : Option T)

@[simp] theorem setOwner_owner : (s.setOwner m o).owner = update s.owner m o := rfl
@[simp] theorem setOwner_sem : (s.setOwner m o).sem = s.sem := rfl
@[simp] theorem setOwner_th : (s.setOwner m o).th = s.th := rfl
@[simp] theorem setOwner_data : (s.setOwner m o).data = s.data := rfl
@[simp] theorem setOwner_log : (s.setOwner m o).log = s.log := rfl
@[simp] theorem setOwner_events : (s.setOwner m o).events = s.events := rfl
@[simp] theorem setOwner_eventsOf [DecidableEq T] (t : T) :
    (s.setOwner m o).eventsOf t = s.eventsOf t := rfl

end simp

/-! Setting a semaphore leaves everything but its value. -/

section simp

variable [DecidableEq S] (s : St T M S C D L E) (x : S) (v : ℕ)

@[simp] theorem setSem_owner : (s.setSem x v).owner = s.owner := rfl
@[simp] theorem setSem_sem : (s.setSem x v).sem = update s.sem x v := rfl
@[simp] theorem setSem_th : (s.setSem x v).th = s.th := rfl
@[simp] theorem setSem_data : (s.setSem x v).data = s.data := rfl
@[simp] theorem setSem_log : (s.setSem x v).log = s.log := rfl
@[simp] theorem setSem_events : (s.setSem x v).events = s.events := rfl
@[simp] theorem setSem_eventsOf [DecidableEq T] (t : T) :
    (s.setSem x v).eventsOf t = s.eventsOf t := rfl

end simp

end St

section semantics

variable [DecidableEq T] [DecidableEq M] [DecidableEq S]

/-- One atomic step of thread `t`. -/
inductive Step (P : L → Op T M S C D L I E) (s : St T M S C D L E) (t : T) :
    St T M S C D L E → Prop
  | lock {l m k} (hl : s.th t = .run l) (ho : P l = .lock m k) (hm : s.owner m = none) :
      Step P s t ((s.setOwner m (some t)).put t (.run k))
  | unlock {l m k} (hl : s.th t = .run l) (ho : P l = .unlock m k) (hm : s.owner m = some t) :
      Step P s t ((s.setOwner m none).put t (.run k))
  | condWait {l c m k} (hl : s.th t = .run l) (ho : P l = .condWait c m k)
      (hm : s.owner m = some t) :
      Step P s t ((s.setOwner m none).put t (.waiting c m k))
  | reacquire {m k} (hl : s.th t = .woken m k) (hm : s.owner m = none) :
      Step P s t ((s.setOwner m (some t)).put t (.run k))
  | condSignal {l c k} (ws : Finset T) (hl : s.th t = .run l) (ho : P l = .condSignal c k)
      (hws : ∀ w ∈ ws, (s.th w).WaitsOn c) (hne : (∃ w, (s.th w).WaitsOn c) → ws.Nonempty) :
      Step P s t ((s.wake ws).put t (.run k))
  | condBroadcast {l c k} (ws : Finset T) (hl : s.th t = .run l) (ho : P l = .condBroadcast c k)
      (hws : ∀ w, w ∈ ws ↔ (s.th w).WaitsOn c) :
      Step P s t ((s.wake ws).put t (.run k))
  | semWait {l x k intr v} (hl : s.th t = .run l) (ho : P l = .semWait x k intr)
      (hx : s.sem x = v + 1) :
      Step P s t ((s.setSem x v).put t (.run k))
  | semIntr {l x k k'} (hl : s.th t = .run l) (ho : P l = .semWait x k (some k')) :
      Step P s t (s.put t (.run k'))
  | semPost {l x k} (hl : s.th t = .run l) (ho : P l = .semPost x k) :
      Step P s t ((s.setSem x (s.sem x + 1)).put t (.run k))
  | create {l start k u} (hl : s.th t = .run l) (ho : P l = .create start k)
      (hu : s.th u = .unborn) :
      Step P s t ((s.put u (.run start)).put t (.run k))
  | join {l u k l'} (hl : s.th t = .run l) (ho : P l = .join u k) (hu : s.th u = .run l')
      (he : P l' = .exit) :
      Step P s t (s.put t (.run k))
  | act {l f i d k ev} (hl : s.th t = .run l) (ho : P l = .act f)
      (hf : f i s.data = some (.next d k ev)) :
      Step P s t ((s.record t d ev).put t (.run k))

/-- A spurious wake-up of thread `t`. -/
inductive Wake (s : St T M S C D L E) (t : T) : St T M S C D L E → Prop
  | spurious {c m k} (hl : s.th t = .waiting c m k) : Wake s t (s.put t (.woken m k))

/-- The runs of `P` from the states `init`: in each step some thread moves or
some sleeper wakes up spuriously. -/
def system (P : L → Op T M S C D L I E) (init : St T M S C D L E → Prop) :
    System (St T M S C D L E) where
  init := init
  step s s' := ∃ t, Step P s t s' ∨ Wake s t s'

/-- The runs of `P` in which every step of a thread is one that `ok` admits. -/
def restricted (P : L → Op T M S C D L I E) (init : St T M S C D L E → Prop)
    (ok : St T M S C D L E → T → Prop) : System (St T M S C D L E) where
  init := init
  step s s' := ∃ t, ok s t ∧ Step P s t s' ∨ Wake s t s'

/-- A restricted run is a run.  So the invariants, which are proved of all
runs, hold in the runs that a condition on the steps selects. -/
theorem restricted_free {P : L → Op T M S C D L I E} {init : St T M S C D L E → Prop}
    {ok : St T M S C D L E → T → Prop} {s : St T M S C D L E}
    (hs : (restricted P init ok).Reachable s) : (system P init).Reachable s := by
  induction hs with
  | init h => exact .init h
  | step hs hstep ih =>
    obtain ⟨t, ⟨-, hst⟩ | hw⟩ := hstep
    · exact .step ih ⟨t, .inl hst⟩
    · exact .step ih ⟨t, .inr hw⟩

/-- No thread has a step: what is left are finished and blocked threads. -/
def Quiescent (P : L → Op T M S C D L I E) (s : St T M S C D L E) : Prop :=
  ∀ t s', ¬ Step P s t s'

/-- Some thread stands before an access whose behaviour is undefined. -/
def Faulty (P : L → Op T M S C D L I E) (s : St T M S C D L E) : Prop :=
  ∃ t l f i, s.th t = .run l ∧ P l = .act f ∧ f i s.data = some .undefined

end semantics

end Pthread
end OSNetWorkCode
