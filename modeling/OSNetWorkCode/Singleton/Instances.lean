/-
# `getThreadPool` and `GetInstance` hand out one object

`0211/threadPool.hpp` and `xjh_multi_thread/test.cc` both hand out their one
object by double-checked locking; they differ in what is constructed.  The
constructor of `ThreadPool` fills `__threads` in a loop over an `int` up to
`__num`, the one of `Singleton` does nothing.

A count cannot be negative: for a negative argument the loop is over before it
begins, and the pool has no threads.  For the greatest `int` the loop's `i++`
overflows.
-/

import OSNetWorkCode.Pthread.DoubleChecked
import OSNetWorkCode.Pthread.Schedule

namespace OSNetWorkCode

open Pthread DoubleChecked

namespace ThreadPool

/-- The number of threads where the caller names none. -/
def gThreadNum : ℤ := 3

/-- A `Thread` object: its name, and the pool that is handed to `routine`. -/
structure Thread where
  name : String
  args : ℕ

/-- `Thread(num, routine, args)`. -/
def Thread.new (num : ℤ) (args : ℕ) : Thread := ⟨"Thread-" ++ toString num, args⟩

/-- A pool, as far as its constructor fills it. -/
structure Pool where
  num : ℤ
  threads : List Thread

/-- The greatest `int`. -/
def maxInt : ℤ := 2147483647

/-- `for (int i = 1; i <= __num; i++) __threads.push_back(new Thread(i,
routine, this))`, one round. -/
def constructorLoop (this : ℕ) (i : ℤ) (pool : Pool) : Body ℤ Pool :=
  if i ≤ pool.num then
    if i = maxInt then .undefined
    else .next (i + 1) { pool with threads := pool.threads ++ [Thread.new i this] }
  else .done

/-- `ThreadPool(int thread_num)`. -/
def constructor : Constructor ℤ ℤ Pool where
  init threadNum := ⟨threadNum, []⟩
  start _ := 1
  body := constructorLoop

/-- The runs of any threads calling `getThreadPool(num)`. -/
def getThreadPool (T : Type*) [DecidableEq T] : System (State T ℤ ℤ Pool) :=
  DoubleChecked.sys constructor

/-- The threads `1` to `n` of the pool at `this`. -/
def threads (n : ℕ) (this : ℕ) : List Thread :=
  (List.range n).map fun k : ℕ => Thread.new ((k : ℤ) + 1) this

/-- The loop has made the threads `1` to `i - 1`, and does not go past `__num`.
It is the invariant of the loop, wherever the constructor stands. -/
theorem runs {this : ℕ} {num i : ℤ} {pool : Pool} (h : constructor.Runs this num i pool) :
    pool.num = num ∧ 1 ≤ i ∧ i - 1 ≤ max num 0 ∧
      pool.threads = threads (i - 1).toNat this := by
  induction h with
  | start => exact ⟨rfl, le_refl 1, le_max_right num 0, rfl⟩
  | @body i pool i' pool' _ hb ih =>
    obtain ⟨hnum, hpos, hle, hthreads⟩ := ih
    have hbody : constructorLoop this i pool = .next i' pool' := hb
    unfold constructorLoop at hbody
    split_ifs at hbody with hi hmax
    obtain ⟨rfl, rfl⟩ := Body.next.inj hbody
    have hcount : (i + 1 - 1).toNat = (i - 1).toNat + 1 := by omega
    have hlast : ((i - 1).toNat : ℤ) + 1 = i := by omega
    refine ⟨hnum, by omega, by omega, ?_⟩
    rw [hthreads, hcount, threads, threads, List.range_succ, List.map_append, List.map_singleton,
      hlast]

/-- **A finished pool has the threads `1` to `num`,** none where `num` is not
positive. -/
theorem makes {this : ℕ} {num : ℤ} {pool : Pool} (h : constructor.Makes this num pool) :
    pool.num = num ∧ pool.threads = threads num.toNat this := by
  obtain ⟨i, hr, hb⟩ := h
  obtain ⟨hnum, hpos, hle, hthreads⟩ := runs hr
  have hbody : constructorLoop this i pool = .done := hb
  unfold constructorLoop at hbody
  split_ifs at hbody with hi hmax
  have hcount : (i - 1).toNat = num.toNat := by omega
  rw [hcount] at hthreads
  exact ⟨hnum, hthreads⟩

/-- The loop overflows only if it has to count to the greatest `int`.  Nothing
else in its body is undefined. -/
theorem le_of_undefined {this : ℕ} {num i : ℤ} {pool : Pool}
    (h : constructor.Runs this num i pool) (hb : constructor.body this i pool = .undefined) :
    maxInt ≤ num := by
  obtain ⟨hnum, -⟩ := runs h
  have hbody : constructorLoop this i pool = .undefined := hb
  unfold constructorLoop at hbody
  split_ifs at hbody with hi hmax
  omega

/-- One pool for all callers of `getThreadPool`. -/
structure OnePool {T : Type*} [DecidableEq T] (s : State T ℤ ℤ Pool) : Prop where
  unique : Unique constructor s
  /-- The pool has as many `Thread` objects as its one constructing call asked for, none where that
  was a negative number; they are numbered from 1 and know their pool. -/
  threads : ∀ num this, (num, this) ∈ began s.events → this ∈ finished s.events →
    ∃ pool, s.data.heap[this]? = some pool ∧ pool.num = num ∧
      (pool.threads.length : ℤ) = max num 0 ∧
      pool.threads = threads num.toNat this
  /-- Nothing is undefined, unless the pool was to have as many threads as the greatest `int`. -/
  defined : Faulty (prog constructor) s → ∃ num this, (num, this) ∈ began s.events ∧ maxInt ≤ num

/-- **There is one pool for all callers.**  That nothing is undefined needs a
bound on the arguments; that the object is the same does not. -/
theorem onePool {T : Type*} [DecidableEq T] {s : State T ℤ ℤ Pool}
    (hs : (getThreadPool T).Reachable s) : OnePool s := by
  have hunique := DoubleChecked.unique hs
  constructor
  · exact hunique
  · intro num this hbegan hfinished
    obtain ⟨pool, hpool, hmakes⟩ := hunique.made num this hbegan hfinished
    obtain ⟨hnum, hthreads⟩ := makes hmakes
    refine ⟨pool, hpool, hnum, ?_, hthreads⟩
    rw [hthreads, threads, List.length_map, List.length_range]
    omega
  · intro hfault
    obtain ⟨num, i, pool, hbegan, hr, hb⟩ := faulty hs hfault
    exact ⟨num, 0, by rw [hbegan]; exact .head _, le_of_undefined hr hb⟩

/-- Two threads that have not called `getThreadPool` yet. -/
def atStart : State (Fin 2) ℤ ℤ Pool :=
  ⟨fun _ => none, fun x => x.elim, fun _ => .run .ready, ⟨none, []⟩, []⟩

/-- Nobody has called yet: a run begins there. -/
theorem reachable_atStart : (getThreadPool (Fin 2)).Reachable atStart :=
  .init ⟨fun _ => rfl, fun _ => rfl, rfl, rfl⟩

end ThreadPool

namespace Singleton

/-- `Singleton(){}`. -/
def constructor : Constructor Unit Unit Unit where
  init _ := ()
  start _ := ()
  body _ _ _ := .done

/-- The runs of any threads calling `GetInstance()`. -/
def getInstance (T : Type*) [DecidableEq T] : System (State T Unit Unit Unit) :=
  DoubleChecked.sys constructor

/-- **Double-checked locking creates one object.** -/
theorem one_object {T : Type*} [DecidableEq T] :
    (∀ s, (ThreadPool.getThreadPool T).Reachable s → ThreadPool.OnePool s) ∧
      ∀ s, (getInstance T).Reachable s → Unique constructor s ∧ ¬ Faulty (prog constructor) s := by
  refine ⟨fun s hs => ThreadPool.onePool hs,
    fun s hs => ⟨DoubleChecked.unique hs, fun hfault => ?_⟩⟩
  obtain ⟨a, c, o, -, -, hb⟩ := faulty hs hfault
  cases hb

/-- Asked for `-1` threads, `getThreadPool` returns a pool of none: the loop
that creates the `Thread` objects is not entered. -/
theorem no_threads : ∃ s, (ThreadPool.getThreadPool (Fin 2)).Reachable s ∧
    began s.events = [(-1, 0)] ∧ returned s.events = [some 0] ∧
    ∃ pool, s.data.heap[0]? = some pool ∧ pool.num = -1 ∧ (pool.threads.length : ℤ) ≠ -1 := by
  obtain ⟨s, hs, hbegan, hreturned, pool, hpool, hnum, hlength⟩ :
      ∃ s, replay (prog ThreadPool.constructor) ThreadPool.atStart
        [(caller, .input (-1)), (caller, .go), (caller, .input 0), (caller, .input 0),
          (caller, .input 0), (caller, .input 0), (caller, .go), (caller, .input 0)] = some s ∧
        began s.events = [(-1, 0)] ∧ returned s.events = [some 0] ∧
        ∃ pool, s.data.heap[0]? = some pool ∧ pool.num = -1 ∧ pool.threads.length = 0 :=
    ⟨_, rfl, rfl, rfl, _, rfl, rfl, rfl⟩
  refine ⟨s, replay_reachable _ ThreadPool.reachable_atStart hs, hbegan, hreturned, pool, hpool,
    hnum, ?_⟩
  omega

/-- Both threads pass the first test; the one that constructs asks for one
thread, the other for three. -/
theorem one_object_two : ∃ s, began s.events = [(1, 0)] ∧
    returned s.events = [some 0, some 0] ∧ ThreadPool.OnePool (T := Fin 2) s := by
  obtain ⟨s, hs, hbegan, hreturned⟩ :
      ∃ s, replay (prog ThreadPool.constructor) ThreadPool.atStart
        [(caller, .input 1), (worker, .input ThreadPool.gThreadNum), (caller, .go),
          (caller, .input 0), (caller, .input 0), (caller, .input 0), (caller, .input 0),
          (caller, .input 0), (caller, .go), (worker, .go), (worker, .input 0), (worker, .go),
          (worker, .input 0), (caller, .input 0)] = some s ∧
        began s.events = [(1, 0)] ∧ returned s.events = [some 0, some 0] := ⟨_, rfl, rfl, rfl⟩
  exact ⟨s, hbegan, hreturned,
    one_object.1 s (replay_reachable _ ThreadPool.reachable_atStart hs)⟩

end Singleton

end OSNetWorkCode
