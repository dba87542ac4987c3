/-
# What the work of a `ThreadPool` comes to

The code around the pool `Ends` if every step of it makes it smaller, where a
task counts from the moment it is pushed, and if it waits for nothing and does
nothing undefined.  A worker goes round its loop for ever, but each round is
paid for by the task that it takes out of the queue, and each time it is woken
by the signal (`ranked`).

So the pool comes to rest.  Then the workers sleep, and if there is one, no
task is queued (`idle_of_quiescent`) and none is held, so every task pushed was
called, once (`atRest_of_quiescent`).
-/

import OSNetWorkCode.Pthread.Rank
import OSNetWorkCode.ThreadPool.Wakeups

namespace OSNetWorkCode
namespace ThreadPool

open Pthread

variable {T τ U X I V : Type*} {user : User τ U X I V} {size : U → ℕ} {store : X → ℕ}

/-- The code around the pool comes to its end, whatever the environment
answers. -/
structure User.Ends (user : User τ U X I V) (size : U → ℕ) (store : X → ℕ) : Prop where
  pushTask : ∀ {u task u'}, user.op u = .pushTask task u' → size u' + size (user.call task) < size u
  run : ∀ {u u'}, user.op u = .run u' → size u' < size u
  act : ∀ {u f}, user.op u = .act f → ∀ i x, ∃ x' u' vs, f i x = some (.next x' u' vs) ∧
    size u' + store x' < size u + store x

/-- What a place of size one of the user code stands for, with `n` threads and
`num` of them to start. -/
def unit (n num : ℕ) : ℕ := 3 * n + 4 * num + 10

/-- The steps left from a place of the user code on. -/
def around (a : ℕ) (size : U → ℕ) (u : U) : ℕ := a * size u + 4

/-- The steps left for a task that is queued. -/
def queued (user : User τ U X I V) (a : ℕ) (size : U → ℕ) (task : τ) : ℕ :=
  around a size (user.call task) + 2

/-- The steps left for a task that was dequeued. -/
def taken (user : User τ U X I V) (a : ℕ) (size : U → ℕ) : Option τ → ℕ
  | some task => around a size (user.call task)
  | none => 0

/-- How many steps are left from a place on, where no task is queued. -/
def Pc.rank (user : User τ U X I V) (n a : ℕ) (size : U → ℕ) : Pc τ U → ℕ
  | .user _ u => around a size u
  | .run _ i u => around a size u + 1 + 4 * i
  | .pushPush task _ u => around a size u + 3 + n * 3 + queued user a size task
  | .pushSignal _ u => around a size u + 2 + n * 3
  | .pushUnlock _ u => around a size u + 1
  | .routineLock _ => 3
  | .routineTest _ => 2
  | .routineWait _ => 1
  | .routineGet _ => 1
  | .routineUnlock task => taken user a size task + 2
  | .routineCall task => taken user a size task + 1

/-- The steps left for the data. -/
def Data.rank (user : User τ U X I V) (a : ℕ) (size : U → ℕ) (store : X → ℕ) (d : Data τ X) : ℕ :=
  (d.taskQueue.map (queued user a size)).sum + a * store d.user

/-- A smaller place of the user code has a whole unit less to go: enough for a
call of `pushTask`, with the signal in it, or of `run()`. -/
theorem around_lt (n num : ℕ) {u u' : U} {k : ℕ} (h : size u' + k < size u) :
    around (unit n num) size u' + unit n num * k + unit n num ≤ around (unit n num) size u := by
  have hle : unit n num * (size u' + k + 1) ≤ unit n num * size u := Nat.mul_le_mul_left _ h
  rw [Nat.mul_add, Nat.mul_add, Nat.mul_one] at hle
  unfold around
  omega

/-- **Every step brings the pool nearer to rest.**  A worker's round is paid
for by the task it takes, which the `pushTask` has paid for, and so has the
user code for that. -/
theorem ranked [Fintype T] (num : ℕ) (hends : user.Ends size store) :
    Ranked (prog (T := T) (S := Empty) user) (fun _ d => d.num = num)
      (Pc.rank user (Fintype.card T) (unit (Fintype.card T) num) size)
      (Data.rank user (unit (Fintype.card T) num) size store) 3 where
  alone {l k} halone hk := by
    generalize hop : prog (T := T) (S := Empty) user l = o at halone hk
    cases calls hop with
    | @pushTask worker u task u' hu =>
      cases hk
      have hlt := around_lt (Fintype.card T) num (hends.pushTask hu)
      simp only [Pc.rank, queued, around, unit] at hlt ⊢
      omega
    | pushUnlock | routineLock | routineUnlock =>
      cases hk
      simp [Pc.rank]
    | exit hu => exact hk.elim
    | _ => exact halone.elim
  wait {l c m k} h := by
    cases calls h
    simp [Pc.rank]
  signal {l c k} h := by
    rcases h with h | h <;> cases calls h
    simp only [Pc.rank]
    omega
  create {l start k} h := by
    cases calls h
    simp only [Pc.rank]
    omega
  act {l f i d d' k ev} h hf hnum := by
    cases access h hf with
    | @user worker u f x u' vs hu hx =>
      obtain ⟨x₁, u₁, vs₁, hnext, hlt⟩ := hends.act hu i d.user
      rw [hx] at hnext
      cases hnext
      have hle := Nat.mul_le_mul_left (unit (Fintype.card T) num) hlt
      rw [Nat.mul_add, Nat.mul_succ, Nat.mul_add] at hle
      simp only [Pc.rank, Data.rank, around]
      simp only [unit] at hle ⊢
      omega
    | @runBegin worker u u' hu =>
      have hlt := around_lt (k := 0) (Fintype.card T) num (hends.run hu)
      simp only [Pc.rank, unit] at hlt ⊢
      omega
    | taskReturn hu => simp [Pc.rank, around]
    | runEnd => simp [Pc.rank]
    | push =>
      simp only [Pc.rank, Data.rank, List.map_append, List.map_cons, List.map_nil, List.sum_append,
        List.sum_cons, List.sum_nil]
      omega
    | empty hq => simp [Pc.rank]
    | nonempty hq => simp [Pc.rank]
    | getTask hq =>
      simp only [Pc.rank, Data.rank, hq, List.map_cons, List.sum_cons, queued, taken]
      omega
    | callTask => simp [Pc.rank, taken]

variable [DecidableEq T] {num : ℕ} {main : U → Prop} {x : X} {s : State T τ U X V}

/-- A pool at rest. -/
structure AtRest (user : User τ U X I V) (s : State T τ U X V) : Prop where
  th : ∀ t, s.th t = .unborn ∨ (∃ u, s.th t = .run (.user false u) ∧ user.op u = .ret) ∨
    (∃ task, s.th t = .waiting .cond .lock (.routineTest task)) ∨
    -- in the loop of `run()`, where no thread is left to start
    ∃ worker i u, s.th t = .run (.run worker (i + 1) u) ∧ ∀ v, s.th v ≠ .unborn
  free : s.owner .lock = none
  done : (∃ t, (s.th t).WaitsOn .cond) → s.data.taskQueue = [] ∧
    dequeued s.events = pushed s.events ∧ (called s.events).Perm (pushed s.events) ∧
    ∀ t, called (s.eventsOf t) = dequeued (s.eventsOf t)

/-- Nothing in the pool or around it is undefined.  The pool's own part of that
is `equipped` and the guarded queue. -/
theorem not_faulty_of_ends (hends : user.Ends size store) (hs : (sys user num main x).Reachable s) :
    ¬ Faulty (prog user) s := by
  rintro ⟨t, l, f, i, ht, hop, hu⟩
  have hinside : ∀ m, ¬ holds l m := fun m hl =>
    not_faultyInside hs ⟨t, l, m, f, i, ht, hl, hop, hu⟩
  cases hc : calls hop with
  | @userAct worker u f hact =>
    obtain ⟨x', u', vs, hnext, -⟩ := hends.act hact i s.data.user
    rw [userAct_undefined hu] at hnext
    cases hnext
  | pushPush | routineTest | routineGet => exact hinside .lock trivial
  | @routineCall task =>
    cases task with
    | some task => cases hu
    | none => exact equipped hs t ht
  | _ => cases hu

/-- **How the threads of a pool at rest stand.**  A worker executing a task
would have a step, since the code around the pool waits for nothing. -/
theorem stands [Fintype T] [Inhabited I] (hends : user.Ends size store)
    (hs : (sys user num main x).Reachable s) (hq : Quiescent (prog user) s) (t : T) :
    s.th t = .unborn ∨ (∃ u, s.th t = .run (.user false u) ∧ user.op u = .ret) ∨
      (∃ task, s.th t = .waiting .cond .lock (.routineTest task)) ∨
      ∃ worker i u, s.th t = .run (.run worker (i + 1) u) ∧ ∀ v, s.th v ≠ .unborn := by
  have hf := not_faulty_of_ends hends hs
  rcases hq.stalled locks prompt (owned hs) hf t with
    h | h | ⟨ht, ho⟩ | ⟨ht, ho, -⟩ | ⟨ht, ho, hu⟩ | ⟨ht, ho, -⟩ | @⟨l, f, ht, ho, hnone⟩
  · exact .inl h
  · cases hst : s.th t with
    | waiting c m k =>
      obtain ⟨l, hl⟩ := (owned hs).waiting hst
      cases calls hl
      exact .inr (.inr (.inl ⟨_, rfl⟩))
    | _ =>
      rw [hst] at h
      exact h.elim
  · cases calls ho with
    | exit hu => exact .inr (.inl ⟨_, ht, hu⟩)
  · cases calls ho
  · cases calls ho with
    | start => exact .inr (.inr (.inr ⟨_, _, _, ht, hu⟩))
  · cases calls ho
  · -- an access can always be made
    have hcan : ∃ i o, f i s.data = some o := by
      cases calls ho with
      | @userAct worker u f hact =>
        obtain ⟨x', u', vs, hnext, -⟩ := hends.act hact default s.data.user
        exact ⟨default, _, by simp [userAct, hnext]; rfl⟩
      | pushPush | routineTest | routineGet => exact prompt.act ho (m := .lock) trivial s.data
      | @routineCall task => cases task <;> exact ⟨default, _, rfl⟩
      | _ => exact ⟨default, _, rfl⟩
    obtain ⟨i, o, hio⟩ := hcan
    rw [hnone i] at hio
    cases hio

/-- **In a state without steps the pool is at rest.**  If there is a worker it
sleeps, so that no task is queued; none is held; and the account of the tasks
says the rest. -/
theorem atRest_of_quiescent [Fintype T] [Inhabited I] (hends : user.Ends size store)
    (hs : (sys user num main x).Reachable s) (hq : Quiescent (prog user) s) : AtRest user s := by
  classical
  have hstands := stands hends hs hq
  have hheld : ∀ t, heldBy (s.th t) = [] := fun t => by
    rcases hstands t with ht | ⟨u, ht, -⟩ | ⟨task, ht⟩ | ⟨worker, i, u, ht, -⟩ <;> rw [ht] <;> rfl
  refine ⟨hstands, hq.owner_eq_none locks prompt (owned hs) (not_faultyInside hs) .lock, ?_⟩
  rintro ⟨t, ht⟩
  have hnil := (idle_of_quiescent hs hq).resolve_right fun h => h t ht
  refine ⟨hnil, ?_, List.perm_iff_count.2 fun a => ?_, fun u => ?_⟩
  · have horder := pushed_eq hs
    rw [hnil, List.append_nil] at horder
    exact horder.symm
  · have hcount := count_pushed hs a
    have hzero : s.tally (fun st => (heldBy st).count a) = 0 :=
      St.tally_eq_zero fun t => by rw [hheld]; rfl
    rw [hnil, hzero] at hcount
    exact hcount.symm
  · have htask := dequeued_eventsOf hs u
    rw [hheld, List.append_nil] at htask
    exact htask.symm

/-- **Every task is executed.**  Let the code around the pool and its tasks
come to their end.  From every reachable state, as soon as no worker wakes up
for nothing any more, every run comes to rest, whoever is scheduled: the
threads around the pool have ended or no thread is left for `run()` to start,
all workers sleep, the lock is free, and if there is a worker at all, the queue
is empty and the tasks called are the tasks pushed, each as often, taken in the
order of the pushes. -/
theorem comes_to_rest [Fintype T] [Inhabited I] (hends : user.Ends size store)
    (hs : (sys user num main x).Reachable s) :
    (undisturbed (prog user) (Init num main x)).Inevitable (AtRest user) s :=
  (ranked num hends).inevitable (fun _ hr _ _ _ => num_eq hr)
    (fun _ => atRest_of_quiescent hends) hs

/-- How far `pushThenRun` is from its end: the first task pushes the second. -/
def pushThenRunSize : ℕ → ℕ
  | 0 => 3
  | 1 | 3 => 1
  | _ => 0

/-- Each of its steps makes it smaller, the push by what is pushed as well. -/
theorem pushThenRun_ends : pushThenRun.Ends pushThenRunSize fun _ => 0 where
  pushTask {u task u'} h := by
    match u with
    | 0 | 3 => cases h; decide
    | 1 | 2 | _ + 4 => cases h
  run {u u'} h := by
    match u with
    | 1 => cases h; decide
    | 0 | 2 | 3 | _ + 4 => cases h
  act {u f} h := by
    match u with
    | 0 | 1 | 2 | 3 | _ + 4 => cases h

/-- Both tasks are executed by the one worker, also the one that is pushed by
the other. -/
theorem comes_to_rest_two :
    (undisturbed (prog (T := Fin 2) (S := Empty) (V := Unit) pushThenRun)
      (Init 1 (· = 0) ())).Inevitable (AtRest pushThenRun) (alone caller 1 0 ()) :=
  comes_to_rest pushThenRun_ends (reachable_alone pushThenRun caller 1 0 ())

end ThreadPool
end OSNetWorkCode
