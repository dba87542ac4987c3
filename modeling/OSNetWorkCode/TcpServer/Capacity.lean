/-
# Who is served and who waits

`main` starts the pool once, so there are at most `num` workers, and a worker
serves one connection until its peer is gone.  Connections accepted meanwhile
wait in the queue and are taken out in the order in which they were accepted,
since `main` pushes each before it accepts the next (`acceptor`).  A connection
waits beside a free lock only as long as all workers serve or are on their way
to the lock: none of them sleeps (`queue_le_woken`).
-/

import OSNetWorkCode.Pthread.Places
import OSNetWorkCode.TcpServer.Descriptors
import OSNetWorkCode.ThreadPool.Wakeups

namespace OSNetWorkCode
namespace TcpServer

open Pthread ThreadPool

variable {T S : Type*} {num : ℕ} {l k : Pc Task Place}

/-- The places of `main` in `TcpServer::start`, the loop of `run()` and
`pushTask`. -/
def ofAcceptor : Pc Task Place → Prop
  | .user false .start | .user false .accept | .user false (.link _) | .run false _ .accept
  | .pushPush _ false .accept | .pushSignal false .accept | .pushUnlock false .accept => True
  | _ => False

/-- The places in `service`. -/
def Place.InService : Place → Prop
  | .start | .accept | .link _ => False
  | _ => True

/-- The places of a worker, in `routine` and `service`. -/
def ofWorker : Pc Task Place → Prop
  | .user worker u => worker = true ∧ u.InService
  | .run .. | .pushPush .. | .pushSignal .. | .pushUnlock .. => False
  | _ => True

/-- The descriptor accepted and not pushed yet. -/
def atHand : Pc Task Place → List ℕ
  | .user _ (.link task) | .pushPush task _ _ => [task.sock]
  | _ => []

/-- The threads still to be started. -/
def left (num : ℕ) : Pc Task Place → ℕ
  | .user _ .start => num
  | .run _ i _ => i
  | _ => 0

/-- The descriptors accepted. -/
def accepted (vs : List Event) : List ℕ :=
  vs.filterMap fun | .accepted _ sock => some sock | _ => none

/-- What is accepted comes behind what was accepted before. -/
theorem accepted_append (vs vs' : List Event) :
    accepted (vs ++ vs') = accepted vs ++ accepted vs' :=
  List.filterMap_append ..

/-- **What a call of `main` does** that is no access and starts no thread: it
stays at its places, with the same connection at hand and as many threads to
start. -/
theorem acceptor_leads (hl : ofAcceptor l) (hact : ∀ f, prog (T := T) (S := S) server l ≠ .act f)
    (hcreate : ∀ start k, prog (T := T) (S := S) server l ≠ .create start k)
    (hk : (prog (T := T) (S := S) server l).Leads k) :
    ofAcceptor k ∧ left num k = left num l ∧ atHand k = atHand l := by
  generalize hop : prog (T := T) (S := S) server l = o at hact hcreate hk
  cases calls hop with
  | @pushTask worker u task u' hu =>
    cases hk
    obtain ⟨rfl, rfl⟩ := op_pushTask hu
    cases worker with
    | false => exact ⟨trivial, rfl, rfl⟩
    | true => exact hl.elim
  | @pushSignal worker u | @pushUnlock worker u =>
    cases hk
    cases worker <;> cases u <;> first | exact ⟨trivial, rfl, rfl⟩ | exact hl.elim
  | start => exact absurd rfl (hcreate _ _)
  | exit hu => exact hk.elim
  | routineLock | routineWait | routineUnlock => exact hl.elim
  | _ => exact absurd rfl (hact _)

/-- **What an access of `main` does.**  It accepts a connection and has it at
hand, or pushes the one it has. -/
theorem acceptor_act {f i} {d d' : Data Task Sockets} {ev} (hl : ofAcceptor l)
    (hnum : d.num = num) (hop : prog (T := T) (S := S) server l = .act f)
    (hf : f i d = some (.next d' k ev)) :
    ofAcceptor k ∧ left num k = left num l ∧
      atHand l ++ accepted (userEvents ev) = (pushed ev).map Task.sock ++ atHand k := by
  cases ThreadPool.access hop hf with
  | @user worker u f x u' vs hu hx =>
    cases worker with
    | true => exact hl.elim
    | false =>
      cases served hu hx with
      | missed => exact ⟨trivial, rfl, rfl⟩
      | accepted hnone => exact ⟨trivial, rfl, rfl⟩
      | _ => exact hl.elim
  | @runBegin worker u u' hu =>
    obtain ⟨rfl, rfl⟩ := op_run hu
    cases worker with
    | true => exact hl.elim
    | false => exact ⟨trivial, hnum, rfl⟩
  | taskReturn hu => exact hl.elim
  | @runEnd worker u | @push task worker u =>
    cases worker <;> cases u <;> first | exact ⟨trivial, rfl, rfl⟩ | exact hl.elim
  | empty | nonempty | getTask | callTask => exact hl.elim

/-- **What an access of a worker does:** it neither accepts nor pushes, and the
worker is a worker afterwards.  Connections are accepted and queued by the
thread that called `start` alone. -/
theorem worker_act {f i} {d d' : Data Task Sockets} {ev} (hl : ofWorker l)
    (hop : prog (T := T) (S := S) server l = .act f) (hf : f i d = some (.next d' k ev)) :
    ofWorker k ∧ accepted (userEvents ev) = [] ∧ pushed ev = [] := by
  cases ThreadPool.access hop hf with
  | user hu hx =>
    cases served hu hx with
    | missed | accepted => exact hl.2.elim
    | _ => exact ⟨⟨hl.1, trivial⟩, rfl, rfl⟩
  | runBegin hu =>
    obtain ⟨rfl, -⟩ := op_run hu
    exact hl.2.elim
  | runEnd | push => exact hl.elim
  | callTask => exact ⟨⟨rfl, trivial⟩, rfl, rfl⟩
  | _ => exact ⟨trivial, rfl, rfl⟩

/-- A worker stays one, in `routine` and in `service`: no call of a task leads
back to `start`. -/
theorem closed_ofWorker : Closed (prog (T := T) (S := S) server) ofWorker := by
  intro l k hl hk
  by_cases hact : ∃ f, prog (T := T) (S := S) server l = .act f
  · obtain ⟨f, hop⟩ := hact
    rw [hop] at hk
    obtain ⟨i, d, d', ev, hf⟩ := hk
    exact (worker_act hl hop hf).1
  · generalize hop : prog (T := T) (S := S) server l = o at hk hact
    cases calls hop with
    | pushTask hu =>
      obtain ⟨rfl, -⟩ := op_pushTask hu
      exact hl.2.elim
    | start | pushSignal | pushUnlock => exact hl.elim
    | exit hu => exact hk.elim
    | routineLock | routineWait | routineUnlock =>
      cases hk
      trivial
    | _ => exact absurd ⟨_, rfl⟩ hact

/-- A worker that has a connection to serve. -/
def serving : Status Mutex Cond (Pc Task Place) → Bool
  | .run (.routineCall _) | .run (.user true _) => true
  | _ => false

/-- `main` serves nobody, so that it is not counted among the workers. -/
theorem not_serving_of_acceptor (hl : ofAcceptor l) : serving (.run l) = false := by
  cases l with
  | user worker u =>
    cases worker with
    | false => rfl
    | true => exact hl.elim
  | routineCall task => exact hl.elim
  | _ => rfl

section reachable

variable [Fintype T] [DecidableEq T] {main : T} {s s' : State T} {t : T}

omit [Fintype T] in
/-- The runs of a server with `num` workers that `main` starts, nobody else
alive before. -/
def runs (main : T) (num : ℕ) : System (State T) :=
  system (prog server) (· = alone main num .start .new)

omit [Fintype T] in
/-- A server that `main` starts alone is a server. -/
theorem runs_sys (hs : (runs main num).Reachable s) : (sys num).Reachable s := by
  induction hs with
  | init h =>
    subst h
    exact reachable_alone server main num .start .new
  | step _ hstep ih => exact ih.step hstep

omit [Fintype T] in
/-- **All others are workers:** they are unborn, or in `routine` and
`service`. -/
theorem worker_place (hs : (runs main num).Reachable s) (ht : t ≠ main) :
    s.th t = .unborn ∨ (s.th t).In ofWorker := by
  refine closed_ofWorker.born (fun h => ?_) (fun s h => ?_) hs
  · cases calls h
    trivial
  · subst h
    exact .inl (if_neg ht)

omit [Fintype T] in
/-- A worker starts no thread. -/
theorem not_create (hs : (runs main num).Reachable s) (ht : t ≠ main) (hl : s.th t = .run l)
    {start k : Pc Task Place} : prog (T := T) (S := Empty) server l ≠ .create start k := by
  intro hop
  rcases worker_place hs ht with h | ⟨l', hplace, hworker⟩
  · rw [hl] at h
    cases h
  · rw [hl] at hplace
    obtain rfl := Option.some.inj hplace
    cases calls hop
    exact hworker

/-- At the start all but `main` are still to be started.  As many of them
become workers as `run()` starts. -/
theorem toCome_alone (main : T) (num : ℕ) :
    (alone main num .start .new : State T).tally Status.toCome + 1 = Fintype.card T := by
  have hth : (alone main num .start .new : State T).th =
      Function.update (fun _ => .unborn) main (.run (.user false .start)) := by
    funext t
    rw [Function.update_apply]
    rfl
  have hborn := sum_update_add (fun _ : T => Status.toCome)
    (fun _ => (.unborn : Status Mutex Cond (Pc Task Place))) main (.run (.user false .start))
  rw [← hth, Finset.sum_const, Finset.card_univ, Nat.nsmul_eq_mul] at hborn
  simpa [St.tally, Status.toCome] using hborn

/-- What is known of `main` at its place. -/
structure Accepts (num : ℕ) (s : State T) (l : Pc Task Place) : Prop where
  place : ofAcceptor l
  workers : s.tally Status.toCome + num + 1 = left num l + Fintype.card T
  order : accepted (userEvents s.events) = (pushed s.events).map Task.sock ++ atHand l

/-- **One step of `main`.**  A connection that it accepts is at hand until it
is pushed, and it accepts no other in between, so that the order is kept. -/
theorem Accepts.step (hnum : s.data.num = num) (h : Accepts num s l) (hl : s.th main = .run l)
    (hst : Step (prog server) s main s') : ∃ k, s'.th main = .run k ∧ Accepts num s' k := by
  by_cases hact : ∃ f, prog (T := T) (S := Empty) server l = .act f
  · obtain ⟨f, hop⟩ := hact
    have hmakes := hst.makes hl
    rw [hop] at hmakes
    obtain ⟨i, d, k, ev, hf, rfl⟩ := hmakes
    obtain ⟨hk, hleft, hevents⟩ := acceptor_act h.place hnum hop hf
    refine ⟨k, by rw [St.put_th, Function.update_self], hk, ?_, ?_⟩
    · rw [St.tally_put_eq _ _ _ _ (by rw [St.record_th, hl]; rfl), St.tally_record, hleft]
      exact h.workers
    · rw [St.put_events, St.record_events, userEvents_append, accepted_append, h.order,
        pushed_append, List.map_append, List.append_assoc, hevents, List.append_assoc]
  · have hact := not_exists.1 hact
    have hevents : s'.events = s.events := by
      rcases hst.data_cases with ⟨-, hlog⟩ | ⟨l', f, i, d, k, ev, hl', hop, -⟩
      · rw [St.events, hlog, St.events]
      · rw [hl] at hl'
        obtain rfl := Status.run.inj hl'
        exact absurd hop (hact f)
    rcases hst.tally_toCome with ⟨l', start, k, hl', hop, hk, htally⟩ | ⟨hnot, htally⟩
    · -- a worker is started
      rw [hl] at hl'
      obtain rfl := Status.run.inj hl'
      have hworkers := h.workers
      have horder := h.order
      have hplace := h.place
      cases calls hop with
      | @start worker i u =>
        cases worker with
        | true => exact hplace.elim
        | false =>
          cases u with
          | accept =>
            refine ⟨_, hk, trivial, ?_, by rw [hevents]; exact horder⟩
            simp only [left] at hworkers ⊢
            omega
          | _ => exact hplace.elim
    · have hwait : ∀ c m k, prog (T := T) (S := Empty) server l ≠ .condWait c m k := by
        intro c m k hop
        have hplace := h.place
        cases calls hop
        exact hplace
      obtain ⟨k, hk, hleads⟩ := hst.leads hl hwait
      obtain ⟨hplace, hleft, hhand⟩ : ofAcceptor k ∧ left num k = left num l ∧ atHand k = atHand l :=
        acceptor_leads h.place hact (fun start k => hnot l start k hl) hleads
      refine ⟨k, hk, hplace, ?_, ?_⟩
      · rw [htally, hleft]
        exact h.workers
      · rw [hevents, hhand]
        exact h.order

/-- **`main` accepts, and hands over in that order.**  By induction along the
run; what the workers do concerns neither the order nor the threads to
start. -/
theorem acceptor (hs : (runs main num).Reachable s) :
    ∃ l, s.th main = .run l ∧ Accepts num s l := by
  refine hs.invariant (I := fun s => ∃ l, s.th main = .run l ∧ Accepts num s l) ?_ ?_
  · rintro s rfl
    refine ⟨.user false .start, if_pos rfl, trivial, ?_, rfl⟩
    have hstart := toCome_alone main num
    simp only [left]
    omega
  · rintro s s' hr ⟨l, hl, h⟩ ⟨t, hst | hw⟩
    · by_cases hmain : t = main
      · subst hmain
        exact h.step (num_eq (runs_sys hr)) hl hst
      · refine ⟨l, hst.run_stays (Ne.symm hmain) hl, h.place, ?_, ?_⟩
        · rcases hst.tally_toCome with ⟨l', start, k, hl', hop, -⟩ | ⟨-, htally⟩
          · exact absurd hop (not_create hr hmain hl')
          · rw [htally]
            exact h.workers
        · rcases hst.data_cases with ⟨-, hlog⟩ | ⟨l', f, i, d, k, ev, hl', hop, hf, rfl⟩
          · rw [St.events, hlog]
            exact h.order
          · rcases worker_place hr hmain with hunborn | ⟨l₀, hplace, hworker⟩
            · rw [hl'] at hunborn
              cases hunborn
            · rw [hl'] at hplace
              obtain rfl := Option.some.inj hplace
              obtain ⟨-, haccepted, hpushed⟩ := worker_act hworker hop hf
              rw [St.put_events, St.record_events, userEvents_append, accepted_append, haccepted,
                pushed_append, hpushed, List.append_nil, List.append_nil]
              exact h.order
    · have hmain : main ≠ t := by
        rintro rfl
        obtain ⟨hl'⟩ := hw
        rw [hl] at hl'
        cases hl'
      have htally := hw.tally_toCome
      obtain ⟨-⟩ := hw
      refine ⟨l, by rw [St.put_th, Function.update_of_ne hmain, hl], h.place, ?_, h.order⟩
      rw [htally]
      exact h.workers

/-- **No more are served than there are workers.**  `main` serves nobody, and
the threads that were started are at most `num`. -/
theorem serving_le (hs : (runs main num).Reachable s) :
    (Finset.univ.filter fun t => serving (s.th t)).card ≤ num := by
  obtain ⟨l, hl, h⟩ := acceptor hs
  -- `main` serves nobody, and neither do the threads still to come
  have hone : ∀ t, (if serving (s.th t) then 1 else 0) + (s.th t).toCome +
      (if t = main then 1 else 0) ≤ 1 := fun t => by
    by_cases ht : t = main
    · subst ht
      rw [hl, not_serving_of_acceptor h.place]
      simp [Status.toCome]
    · rw [if_neg ht]
      cases hst : s.th t with
      | unborn => simp [serving, Status.toCome]
      | _ => simp only [Status.toCome]; split_ifs <;> simp
  have hsum : ∑ t, ((if serving (s.th t) then 1 else 0) + (s.th t).toCome +
      if t = main then 1 else 0) ≤ ∑ _ : T, 1 := Finset.sum_le_sum fun t _ => hone t
  rw [Finset.sum_add_distrib, Finset.sum_add_distrib, Finset.sum_ite_eq' Finset.univ main,
    if_pos (Finset.mem_univ main), Finset.sum_const, Finset.card_univ, ← Finset.card_filter] at hsum
  have hworkers := h.workers
  unfold St.tally at hworkers
  simp only [Nat.nsmul_eq_mul, Nat.mul_one] at hsum
  omega

/-- **Beside a free lock a connection waits only for workers that are busy.**
While a worker sleeps each task in the queue has a woken worker of its own, and
here nobody is woken. -/
theorem busy (hs : (runs main num).Reachable s) (hfree : s.owner .lock = none)
    (hqueue : s.data.taskQueue ≠ []) (hwoken : ∀ t, isWoken (s.th t) = false) (ht : t ≠ main) :
    s.th t = .unborn ∨ serving (s.th t) = true ∨ ∃ task, s.th t = .run (.routineLock task) := by
  rcases worker_place hs ht with hunborn | ⟨l, hplace, hworker⟩
  · exact .inl hunborn
  · right
    have hsys := runs_sys hs
    cases hst : s.th t with
    | unborn =>
      rw [hst] at hplace
      cases hplace
    | woken m k =>
      have hnot := hwoken t
      rw [hst] at hnot
      cases hnot
    | waiting c m k =>
      cases c
      have hle := queue_le_woken hsys hfree ⟨t, by rw [hst]; rfl⟩
      rw [Finset.filter_eq_empty_iff.2 fun t _ => by rw [hwoken t]; exact Bool.false_ne_true,
        Finset.card_empty] at hle
      exact absurd (List.length_eq_zero_iff.1 (Nat.le_zero.1 hle)) hqueue
    | run l' =>
      rw [hst] at hplace
      obtain rfl := Option.some.inj hplace
      have hout : ¬ holds l' .lock := fun hin => by
        have hown := ((owned hsys).owner .lock t).2 (by rw [hst]; exact hin)
        rw [hfree] at hown
        cases hown
      cases l' with
      | user worker u =>
        obtain ⟨rfl, -⟩ := hworker
        exact .inl rfl
      | routineLock task => exact .inr ⟨task, rfl⟩
      | routineCall task => exact .inl rfl
      | run => exact hworker.elim
      | _ => exact absurd trivial hout

/-- **Connections are served in turn, and wait only while all workers are
busy.**  In every reachable state of a server with `num` workers: at most `num`
connections are served at a time; those handed to workers and then those queued
are the ones accepted, in that order, but for the one `main` may have at hand;
and while one is queued, with the lock free and nobody woken, every worker
serves a connection or is about to take the lock. -/
theorem served_in_turn (hs : (runs main num).Reachable s) :
    (Finset.univ.filter fun t => serving (s.th t)).card ≤ num ∧
    (∃ l, s.th main = .run l ∧ accepted (userEvents s.events) =
      (dequeued s.events ++ s.data.taskQueue).map Task.sock ++ atHand l) ∧
    (s.owner .lock = none → s.data.taskQueue ≠ [] → (∀ t, isWoken (s.th t) = false) →
      ∀ t, t ≠ main → s.th t = .unborn ∨ serving (s.th t) = true ∨
        ∃ task, s.th t = .run (.routineLock task)) := by
  obtain ⟨l, hl, h⟩ := acceptor hs
  refine ⟨serving_le hs, ⟨l, hl, ?_⟩, fun hfree hqueue hwoken t ht => busy hs hfree hqueue hwoken ht⟩
  rw [h.order, pushed_eq (runs_sys hs)]

end reachable

/-- After the first client has hung up and the second was accepted, the second
one is at hand. -/
theorem served_in_turn_two : ∃ s : State (Fin 2), accepted (userEvents s.events) = [4, 4] ∧
    s.data.taskQueue = [] ∧ (Finset.univ.filter fun t => serving (s.th t)).card ≤ 1 := by
  have hinit : (runs caller 1).Reachable (alone caller 1 .start .new : State (Fin 2)) := .init rfl
  obtain ⟨s, hs, haccepted, hqueue⟩ : ∃ s : State (Fin 2),
      replay (prog server) (alone caller 1 .start .new) twoClients = some s ∧
      accepted (userEvents s.events) = [4, 4] ∧ s.data.taskQueue = [] :=
    ⟨_, rfl, rfl, rfl⟩
  exact ⟨s, haccepted, hqueue, (served_in_turn (replay_reachable twoClients hinit hs)).1⟩

end TcpServer
end OSNetWorkCode
