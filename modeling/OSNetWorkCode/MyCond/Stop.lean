/-
# When the workers stop

Nothing but the broadcast wakes the workers at the end, and it wakes those that
sleep.  One that has found `quit` not set and does not sleep yet misses it: it
falls asleep afterwards, and `main` waits for it in `pthread_join`
(`worker_sleeps_on`).

If there is no such worker when `main` broadcasts, nobody will sleep again:
`quit` is set (`quit_of_told`), so that every worker that comes to its test
returns (`settled`).  Then a state without steps is one where all have returned
and are joined (`workers_stop`).
-/

import Mathlib.Tactic.FinCases
import OSNetWorkCode.MyCond.Model
import OSNetWorkCode.Pthread.Schedule
import OSNetWorkCode.Pthread.Starter

namespace OSNetWorkCode
namespace MyCond

open Pthread

section prog

variable {T S : Type*} {cnt : ℕ} {us : List T}

/-- Where a call at a place may return to. -/
inductive Next (cnt : ℕ) (us : List T) : Pc T → Pc T → Prop
  | create {td tds} : Next cnt us (.create (td :: tds)) (.create tds)
  | created : Next cnt us (.create []) (.signal cnt)
  | signal {n} : Next cnt us (.signal (n + 1)) (.signal n)
  | signalled : Next cnt us (.signal 0) .setQuit
  | setQuit : Next cnt us .setQuit .broadcast
  | broadcast : Next cnt us .broadcast (.join us)
  | join {v vs} : Next cnt us (.join (v :: vs)) (.joined v vs)
  | joined {v vs} : Next cnt us (.joined v vs) (.join vs)
  | running {td} : Next cnt us (.test td) (.lock td)
  | quit {td} : Next cnt us (.test td) .returned
  | lock {td} : Next cnt us (.lock td) (.wait td)
  | wait {td} : Next cnt us (.wait td) (.print td)
  | print {td} : Next cnt us (.print td) (.unlock td)
  | unlock {td} : Next cnt us (.unlock td) (.test td)

/-- **Every call leads to one of these places.**  So sets of places that are
closed, or entered in one way only, are checked rule by rule. -/
theorem next_of_leads {l k : Pc T} (hk : (prog (S := S) cnt us l).Leads k) : Next cnt us l k := by
  generalize hop : prog (S := S) cnt us l = o at hk
  cases calls hop with
  | created | signalled | setQuit | joined | print =>
    obtain ⟨i, d, d', ev, hf⟩ := hk
    cases hf
    constructor
  | test =>
    obtain ⟨i, d, d', ev, hf⟩ := hk
    cases hf
    split_ifs
    · exact .quit
    · exact .running
  | allJoined | returned => exact hk.elim
  | _ =>
    cases hk
    constructor

/-- A worker holds the mutex from its lock to its unlock, and `main` never
does.  The wait gives the mutex back and takes it again, so the places behind
it hold it. -/
theorem locks : Locks (prog (S := S) cnt us) holds where
  lock {l m k} h := by
    cases calls h
    exact id
  unlock {l m k} h := by
    cases calls h
    trivial
  condWait {l c m k} h := by
    cases calls h
    trivial
  create {l start k} h m := by
    cases calls h
    exact id
  leads {l k} hk m := by
    cases m
    cases next_of_leads hk with
    | lock => exact ⟨fun _ => .inl rfl, fun _ => trivial⟩
    | unlock => exact ⟨False.elim, fun h => h.1 rfl⟩
    | _ => exact Iff.rfl

/-- Nothing blocks while the mutex is held but the wait that gives it back, so
that a thread which has the mutex can always go on. -/
theorem prompt : Prompt (prog (S := S) cnt us) holds where
  lock {l m k} h m' := by
    cases calls h
    exact id
  condWait {l c m k} h m' _ := by
    cases m
    cases m'
    rfl
  semWait {l x k intr} h := by cases calls h
  create {l start k} h m := by
    cases calls h
    exact id
  join {l u k} h m := by
    cases calls h
    exact id
  act {l f m} h _ d := by
    cases calls h <;> exact ⟨(), _, rfl⟩
  exit {l} h m := by
    cases calls h <;> exact id

/-- Every access can be made, and none is undefined. -/
theorem total : Total (prog (S := S) cnt us) := by
  intro l f h i d
  cases calls h <;> exact ⟨_, _, _, rfl⟩

end prog

/-! ### Who stands where -/

section places

variable {funcs : List Func} {cnt : ℕ} {s s' : State funcs}

/-- The places of `main`, which joins workers only. -/
def ofMain : Pc (Tid funcs) → Prop
  | .create _ | .signal _ | .setQuit | .broadcast => True
  | .join us | .joined _ us => ∀ u ∈ us, u ≠ none
  | _ => False

/-- The places of a worker. -/
def ofWorker {T : Type*} : Pc T → Prop
  | .test _ | .lock _ | .wait _ | .print _ | .unlock _ | .returned => True
  | _ => False

/-- The places from which `main` has set `quit`. -/
def afterQuit {T : Type*} : Pc T → Prop
  | .broadcast | .join _ | .joined .. => True
  | _ => False

/-- `main` stays at its own places, and joins workers only. -/
theorem closed_ofMain : Closed (prog (S := Empty) cnt (tids funcs)) ofMain := by
  intro l k hl hk
  cases next_of_leads hk with
  | create | created | signal | signalled | setQuit => trivial
  | broadcast =>
    intro u hu
    obtain ⟨i, -, rfl⟩ := List.mem_map.1 hu
    nofun
  | join => exact fun u hu => hl u (List.mem_cons_of_mem _ hu)
  | joined => exact hl
  | _ => exact hl.elim

/-- A worker stays at its own places. -/
theorem closed_ofWorker : Closed (prog (S := Empty) cnt (tids funcs)) ofWorker := by
  intro l k hl hk
  cases next_of_leads hk with
  | running | quit | lock | wait | print | unlock => trivial
  | _ => exact hl.elim

/-- In every reachable state the owner of the mutex is the worker that stands
between lock and unlock. -/
theorem owned (hs : (runs funcs cnt).Reachable s) :
    Owned (prog cnt (tids funcs)) holds s := by
  refine locks.owned (fun s h => ?_) hs
  subst h
  constructor
  · rintro m (_ | i)
    · exact ⟨nofun, False.elim⟩
    · exact ⟨nofun, False.elim⟩
  · rintro (_ | i) <;> trivial

/-- **From the broadcast on `quit` is set.**  Nobody clears it, so that this is
known without the mutex, which `main` does not take. -/
theorem quit_of_after (hs : (runs funcs cnt).Reachable s) {t : Tid funcs}
    (ht : (s.th t).In afterQuit) : s.data.quit = true := by
  have hlearns : Learns (prog (S := Empty) cnt (tids funcs)) afterQuit
      fun d => d.quit = true := by
    refine ⟨fun {l k} hact hk hk' => ?_, fun {l start k} h hstart => ?_,
      fun {l f i d d' k e} h hf hk => ?_, fun {l f i d d' k e} h hf hd => ?_⟩
    · cases next_of_leads hk with
      | broadcast | join => trivial
      | setQuit => exact absurd rfl (hact _)
      | joined => trivial
      | _ => exact hk'.elim
    · cases calls h
      exact hstart.elim
    · cases calls h with
      | setQuit =>
        cases hf
        exact .inr rfl
      | joined => exact .inl trivial
      | created | signalled | print =>
        cases hf
        exact hk.elim
      | test =>
        cases hf
        split_ifs at hk <;> exact hk.elim
    · cases calls h <;> cases hf <;> first | exact hd | rfl
  refine hlearns.known (fun s t h hin => ?_) hs t ht
  obtain ⟨l, hplace, hl⟩ := hin
  subst h
  cases t with
  | none =>
    cases hplace
    exact hl
  | some i => cases hplace

/-! ### Who is alive -/

/-- How many threads `main` has still to start. -/
def toStart {T : Type*} : Status Mutex Cond (Pc T) → ℕ
  | .run (.create tds) => tds.length
  | _ => 0

/-- `main` starts the workers: one for each entry that is left, and it waits on
no condition variable. -/
theorem starter : Starter (prog (S := Empty) cnt (tids funcs)) ofMain ofWorker
    fun l => toStart (.run l) where
  main := closed_ofMain
  others := closed_ofWorker
  wait {l c m k} h := by
    cases calls h
    exact id
  create {l start k} h := by
    cases calls h
    exact ⟨id, trivial, rfl⟩
  stay {l k} hmain hcreate hk := by
    cases next_of_leads hk with
    | create => exact absurd rfl (hcreate _ _)
    | created | signal | signalled | setQuit | broadcast | join | joined => rfl
    | _ => exact hmain.elim

/-- At the start `main` is alone and has all workers still to start, each of
them once. -/
theorem begun (s : State funcs) (h : s = start funcs) :
    Begun ofMain (fun l => toStart (.run l)) none s where
  runs := by
    subst h
    refine ⟨.create (threadData funcs), rfl, trivial, ?_⟩
    have hlen : (threadData funcs).length = funcs.length := List.length_mapIdx
    show ∑ t : Tid funcs, _ = (threadData funcs).length
    rw [Fintype.sum_option, hlen]
    show 0 + ∑ _ : Fin funcs.length, 1 = _
    simp
  others t ht := by
    subst h
    cases t with
    | none => exact absurd rfl ht
    | some i => rfl

/-- `main` runs, at one of its places: it never sleeps. -/
theorem main_runs (hs : (runs funcs cnt).Reachable s) :
    ∃ l, s.th none = .run l ∧ ofMain l := by
  obtain ⟨l, hl, hmain, -⟩ := starter.main_place begun hs
  exact ⟨l, hl, hmain⟩

/-- `main` goes on along its call: none of its calls puts it to sleep, so that
where it stands after a step is where its call leads. -/
theorem main_leads (hs : (runs funcs cnt).Reachable s)
    (hst : Step (prog cnt (tids funcs)) s none s') {l : Pc (Tid funcs)}
    (hl : s.th none = .run l) :
    ∃ k, s'.th none = .run k ∧ (prog (S := Empty) cnt (tids funcs) l).Leads k := by
  refine hst.leads hl fun c m k hop => ?_
  obtain ⟨l', hl', hmain⟩ := main_runs hs
  rw [hl] at hl'
  cases hl'
  exact starter.wait hop hmain

/-- When `main` has broadcast all workers are alive.  So the broadcast is not
made before a worker that it should reach. -/
theorem born_of_told (hs : (runs funcs cnt).Reachable s) (htold : Told s)
    (i : Fin funcs.length) : (s.th (some i)).In ofWorker := by
  have hworker : some i ≠ none := Option.some_ne_none i
  rcases htold with ⟨us, h⟩ | ⟨u, us, h⟩
  · exact starter.all_born begun hs h rfl hworker
  · exact starter.all_born begun hs h rfl hworker

/-- `main` has broadcast, so `quit` is set: it sets it first, and nobody resets
it. -/
theorem quit_of_told (hs : (runs funcs cnt).Reachable s) (htold : Told s) :
    s.data.quit = true := by
  refine quit_of_after hs (t := none) ?_
  rcases htold with ⟨us, h⟩ | ⟨u, us, h⟩ <;>
    · rw [h]
      exact ⟨_, rfl, trivial⟩

end places

/-! ### In time -/

section inTime

variable {funcs : List Func} {cnt : ℕ} {s s' : State funcs}

/-- A worker that sleeps, or will without another look at `quit`. -/
def Committed {T : Type*} (st : Status Mutex Cond (Pc T)) : Prop :=
  BetweenTestAndWait st ∨ st.Asleep

/-- The broadcast wakes all sleepers.  Who is neither asleep nor about to be is
not concerned. -/
theorem not_asleep_of_broadcast {ws : Finset (Tid funcs)}
    (hws : ∀ w, w ∈ ws ↔ (s.th w).WaitsOn .cond) (u : Tid funcs)
    (hbetween : ¬ BetweenTestAndWait (s.th u)) : ¬ Committed ((s.wake ws).th u) := by
  rw [St.wake_th]
  cases hst : s.th u with
  | waiting c m k =>
    have hmem : u ∈ ws := by
      rw [hws, hst]
      cases c
      rfl
    rw [if_pos hmem]
    exact not_or.2 ⟨id, id⟩
  | run l =>
    rw [hst] at hbetween
    split_ifs <;> exact not_or.2 ⟨hbetween, id⟩
  | _ => split_ifs <;> exact not_or.2 ⟨id, id⟩

/-- One thread moves and is not going to sleep, nor is any other.  Then nobody
is. -/
theorem not_committed_put {r : State funcs} {t : Tid funcs}
    {st : Status Mutex Cond (Pc (Tid funcs))} (hst : ¬ Committed st)
    (hnot : ∀ u, ¬ Committed (r.th u)) (u : Tid funcs) : ¬ Committed ((r.put t st).th u) := by
  by_cases hu : u = t
  · subst hu
    rwa [St.put_th, Function.update_self]
  · rw [St.put_th, Function.update_of_ne hu]
    exact hnot u

/-- **A worker that moves when `quit` is set** is not going to sleep, if nobody
was: at its test it returns, and from behind its wait it comes to the test. -/
theorem worker_moves (howned : Owned (prog (S := Empty) cnt (tids funcs)) holds s)
    (hquit : s.data.quit = true) {t : Tid funcs} (hin : (s.th t).In ofWorker)
    (hst : Step (prog cnt (tids funcs)) s t s') (hnot : ∀ u, ¬ Committed (s.th u)) :
    ∀ u, ¬ Committed (s'.th u) := by
  rcases hst.status with ⟨l, hl⟩ | ⟨m, k, hl⟩
  · have hmakes := hst.makes hl
    have hself := hnot t
    rw [hl] at hin hself
    obtain ⟨l', hl', hworker⟩ := hin
    cases hl'
    cases l with
    | test td =>
      obtain ⟨i, d, k, ev, hf, rfl⟩ := hmakes
      cases hf
      rw [if_pos hquit]
      exact not_committed_put (not_or.2 ⟨id, id⟩) hnot
    | print td =>
      obtain ⟨i, d, k, ev, hf, rfl⟩ := hmakes
      cases hf
      exact not_committed_put (not_or.2 ⟨id, id⟩) hnot
    | unlock td =>
      obtain ⟨-, rfl⟩ := hmakes
      exact not_committed_put (not_or.2 ⟨id, id⟩) hnot
    | lock td | wait td => exact absurd (.inl trivial) hself
    | returned => exact hmakes.elim
    | _ => exact hworker.elim
  · cases hst with
    | reacquire hl' hm =>
      obtain ⟨l, c, hop⟩ := howned.woken hl'
      cases calls hop
      exact not_committed_put (not_or.2 ⟨id, id⟩) hnot
    | condSignal _ hl' | condBroadcast _ hl' =>
      rw [hl] at hl'
      cases hl'
    | lock hl' | unlock hl' | condWait hl' | semWait hl' | semIntr hl' | semPost hl' | create hl'
    | join hl' | act hl' =>
      rw [hl] at hl'
      cases hl'

/-- `main` comes to its joins by the broadcast, or was there. -/
theorem told_leads {l k : Pc (Tid funcs)}
    (hk : (prog (S := Empty) cnt (tids funcs) l).Leads k)
    (htold : (∃ us, k = .join us) ∨ ∃ u us, k = .joined u us) :
    l = .broadcast ∨ (∃ us, l = .join us) ∨ ∃ u us, l = .joined u us := by
  cases next_of_leads hk with
  | broadcast => exact .inl rfl
  | join => exact .inr (.inl ⟨_, rfl⟩)
  | joined => exact .inr (.inr ⟨_, _, rfl⟩)
  | _ => rcases htold with ⟨us, h⟩ | ⟨u, us, h⟩ <;> cases h

/-- Where `main` stands when it has broadcast: at a join, or behind one. -/
theorem told_iff {l : Pc (Tid funcs)} (hl : s.th none = .run l) :
    Told s ↔ (∃ us, l = .join us) ∨ ∃ u us, l = .joined u us := by
  simp only [Told, hl, Status.run.injEq]

/-- `main` moves, in time: then nobody is going to sleep where it has
broadcast.  This is the step that the condition on the run is for. -/
theorem main_moves (hs : (runs funcs cnt).Reachable s) (hok : InTime s none)
    (hst : Step (prog cnt (tids funcs)) s none s')
    (hnot : Told s → ∀ u, ¬ Committed (s.th u)) (htold : Told s') (u : Tid funcs) :
    ¬ Committed (s'.th u) := by
  obtain ⟨l, hl, hmain⟩ := main_runs hs
  obtain ⟨k, hk, hleads⟩ := main_leads hs hst hl
  have hmakes := hst.makes hl
  rcases told_leads hleads ((told_iff hk).1 htold) with rfl | hjoin
  · obtain ⟨ws, hws, rfl⟩ := hmakes
    exact not_committed_put (not_or.2 ⟨id, id⟩)
      (fun w => not_asleep_of_broadcast hws w (hok hl w)) u
  · have hnot' := hnot ((told_iff hl).2 hjoin)
    rcases hjoin with ⟨us, rfl⟩ | ⟨v, us, rfl⟩
    · cases us with
      | nil => exact hmakes.elim
      | cons v us =>
        obtain ⟨l', -, -, rfl⟩ := hmakes
        exact not_committed_put (not_or.2 ⟨id, id⟩) hnot' u
    · obtain ⟨i, d, k, ev, hf, rfl⟩ := hmakes
      cases hf
      exact not_committed_put (not_or.2 ⟨id, id⟩) hnot' u

/-- **After a broadcast in time nobody sleeps, or will.**  By induction along
the run; spurious wake-ups only wake. -/
theorem settled (hs : (inTime funcs cnt).Reachable s) (htold : Told s) (u : Tid funcs) :
    ¬ Committed (s.th u) := by
  revert u htold
  refine hs.invariant (I := fun s => Told s → ∀ u, ¬ Committed (s.th u)) ?_ ?_
  · rintro _ rfl (⟨us, h⟩ | ⟨u, us, h⟩) <;> cases h
  · rintro s s' hs ih ⟨t, ⟨hok, hst⟩ | hw⟩ htold
    · have hfree : (runs funcs cnt).Reachable s := restricted_free hs
      cases t with
      | none => exact main_moves hfree hok hst ih htold
      | some i =>
        obtain ⟨l, hl, -⟩ := main_runs hfree
        have hne : none ≠ some i := nofun
        have hl' := hst.run_stays hne hl
        have hold : Told s := (told_iff hl).2 ((told_iff hl').1 htold)
        exact worker_moves (owned hfree) (quit_of_told hfree hold) (born_of_told hfree hold i) hst
          (ih hold)
    · have hfree : (runs funcs cnt).Reachable s := restricted_free hs
      obtain ⟨hl⟩ := hw
      obtain ⟨l, hmain, -⟩ := main_runs hfree
      have hne : none ≠ t := by
        rintro rfl
        rw [hmain] at hl
        cases hl
      have hold : Told s := by
        refine (told_iff hmain).2 ((told_iff ?_).1 htold)
        rw [St.put_th, Function.update_of_ne hne, hmain]
      exact not_committed_put (not_or.2 ⟨id, id⟩) (ih hold)

/-- In a state without steps the workers have returned, once nobody sleeps or
will: at any other place a worker has a step, the mutex being free. -/
theorem returned_of_quiescent (hs : (runs funcs cnt).Reachable s) (htold : Told s)
    (hsettled : ∀ u, ¬ Committed (s.th u)) (hq : Quiescent (prog cnt (tids funcs)) s)
    (i : Fin funcs.length) : s.th (some i) = .run .returned := by
  obtain ⟨l, hplace, hl⟩ := born_of_told hs htold i
  rcases hq.stalled locks prompt (owned hs) (total.not_faulty s) (some i) with
    h | h | ⟨ht, ho⟩ | ⟨ht, ho, hx⟩ | ⟨ht, ho, -⟩ | ⟨ht, ho, -⟩ | ⟨ht, ho, hf⟩
  · rw [h] at hplace
    cases hplace
  · exact absurd (.inr h) (hsettled (some i))
  · rw [ht] at hplace
    cases hplace
    cases calls ho with
    | returned => exact ht
    | allJoined => exact hl.elim
  · cases calls ho
  · rw [ht] at hplace
    cases hplace
    cases calls ho
    exact hl.elim
  · rw [ht] at hplace
    cases hplace
    cases calls ho
    exact hl.elim
  · exact absurd (hf ()) (total.answers ho ())

/-- And `main` has joined them.  Each join finds its worker returned, so that
`main` stops only behind the last. -/
theorem joined_of_quiescent (hs : (runs funcs cnt).Reachable s) (htold : Told s)
    (hreturned : ∀ i, s.th (some i) = .run .returned)
    (hq : Quiescent (prog cnt (tids funcs)) s) : s.th none = .run (.join []) := by
  obtain ⟨l, hl, hmain⟩ := main_runs hs
  rcases hq.stalled locks prompt (owned hs) (total.not_faulty s) none with
    h | h | ⟨ht, ho⟩ | ⟨ht, ho, hx⟩ | ⟨ht, ho, -⟩ | ⟨ht, ho, hu⟩ | ⟨ht, ho, hf⟩
  · rw [hl] at h
    cases h
  · rw [hl] at h
    exact h.elim
  · rw [hl] at ht
    cases ht
    cases calls ho with
    | allJoined => exact hl
    | returned => exact hmain.elim
  · cases calls ho
  · rw [hl] at ht
    cases ht
    cases calls ho
    rcases (told_iff hl).1 htold with ⟨us, h⟩ | ⟨u, us, h⟩ <;> cases h
  · rw [hl] at ht
    cases ht
    rename_i u k
    cases calls ho with
    | join =>
      -- the next thread to join has returned
      cases u with
      | none => exact absurd rfl (hmain none List.mem_cons_self)
      | some i => exact absurd rfl (hu _ (hreturned i))
  · exact absurd (hf ()) (total.answers ho ())

/-- **The workers stop.**  For every number of workers and of signals, and
every interleaving with spurious wake-ups in which `main` broadcasts when no
worker is between its test of `quit` and its wait: a state in which `main` has
broadcast and nobody has a step is one where all workers have returned and all
joins are over. -/
theorem workers_stop (funcs : List Func) (cnt : ℕ) {s : State funcs}
    (hs : (inTime funcs cnt).Reachable s) (htold : Told s)
    (hq : Quiescent (prog cnt (tids funcs)) s) : Stopped s := by
  have hfree : (runs funcs cnt).Reachable s := restricted_free hs
  have hreturned := returned_of_quiescent hfree htold (settled hs htold) hq
  exact ⟨joined_of_quiescent hfree htold hreturned hq, hreturned⟩

end inTime

/-- One worker and one signal: the signal wakes it, it prints its line and goes
to sleep again, and so the broadcast finds it asleep. -/
theorem workers_stop_one : ∃ asleep s : State [.func1], (inTime [.func1] 1).Reachable asleep ∧
    asleep.th none = .run .broadcast ∧ (asleep.th (some 0)).WaitsOn .cond ∧
    Told s ∧ Quiescent (prog 1 (tids [.func1])) s ∧ Stopped s := by
  have h₀ : (inTime [.func1] 1).Reachable (start [.func1]) := .init rfl
  have h₁ := restricted_next (t := none) (c := .start (some 0)) h₀ nofun rfl
  have h₂ := restricted_next (t := none) (c := .input ()) h₁ nofun rfl
  -- the worker finds `quit` not set and sleeps until it is signalled
  have h₃ := restricted_next (t := some 0) (c := .input ()) h₂ nofun rfl
  have h₄ := restricted_next (t := some 0) (c := .go) h₃ nofun rfl
  have h₅ := restricted_next (t := some 0) (c := .go) h₄ nofun rfl
  have h₆ := restricted_next (t := none) (c := .wake {some 0}) h₅ nofun rfl
  have h₇ := restricted_next (t := some 0) (c := .go) h₆ nofun rfl
  have h₈ := restricted_next (t := some 0) (c := .input ()) h₇ nofun rfl
  have h₉ := restricted_next (t := some 0) (c := .go) h₈ nofun rfl
  -- it comes round, finds `quit` still not set and sleeps again
  have h₁₀ := restricted_next (t := some 0) (c := .input ()) h₉ nofun rfl
  have h₁₁ := restricted_next (t := some 0) (c := .go) h₁₀ nofun rfl
  have h₁₂ := restricted_next (t := some 0) (c := .go) h₁₁ nofun rfl
  have h₁₃ := restricted_next (t := none) (c := .input ()) h₁₂ nofun rfl
  have h₁₄ := restricted_next (t := none) (c := .input ()) h₁₃ nofun rfl
  obtain ⟨s, hs, hmain, hworker⟩ : ∃ s, (inTime [.func1] 1).Reachable s ∧
      s.th none = .run (.join []) ∧ ∀ i, s.th (some i) = .run .returned := by
    have h₁₅ := restricted_next (t := none) (c := .go) h₁₄ (fun _ u => by
      rcases u with _ | i
      · exact id
      · change Fin 1 at i
        fin_cases i
        exact id) rfl
    have h₁₆ := restricted_next (t := some 0) (c := .go) h₁₅ nofun rfl
    have h₁₇ := restricted_next (t := some 0) (c := .input ()) h₁₆ nofun rfl
    have h₁₈ := restricted_next (t := some 0) (c := .go) h₁₇ nofun rfl
    have h₁₉ := restricted_next (t := some 0) (c := .input ()) h₁₈ nofun rfl
    have h₂₀ := restricted_next (t := none) (c := .go) h₁₉ nofun rfl
    have h₂₁ := restricted_next (t := none) (c := .input ()) h₂₀ nofun rfl
    refine ⟨_, h₂₁, rfl, fun i => ?_⟩
    change Fin 1 at i
    fin_cases i
    rfl
  have htold : Told s := .inl ⟨[], hmain⟩
  have hq : Quiescent (prog 1 (tids [.func1])) s := fun t s' hst => by
    rcases t with _ | i
    · exact (Stalled.done hmain rfl).not_step s' hst
    · exact (Stalled.done (hworker i) rfl).not_step s' hst
  exact ⟨_, s, h₁₄, rfl, rfl, htold, hq, workers_stop [.func1] 1 hs htold hq⟩

/-! ### The four workers of the source -/

/-- `funcs`. -/
def allFuncs : List Func := [.func1, .func2, .func3, .func4]

/-- One of its threads. -/
def thread (i : Fin 4) : Tid allFuncs := some i

/-- `main` starts the four threads; the first of them finds `quit` not set. -/
def begins : List (Tid allFuncs × Choice (Tid allFuncs) Unit) :=
  [(none, .start (thread 0)), (none, .start (thread 1)), (none, .start (thread 2)),
    (none, .start (thread 3)), (none, .input ()), (thread 0, .input ())]

/-- Ten signals that nobody waits for, `quit`, and the broadcast. -/
def tells : List (Tid allFuncs × Choice (Tid allFuncs) Unit) :=
  List.replicate 10 (none, .wake ∅) ++ [(none, .input ()), (none, .input ()), (none, .go)]

/-- The other threads find `quit` set; the first goes to sleep. -/
def sleeps : List (Tid allFuncs × Choice (Tid allFuncs) Unit) :=
  [(thread 1, .input ()), (thread 2, .input ()), (thread 3, .input ()), (thread 0, .go),
    (thread 0, .go)]

/-- **A worker may sleep on.**  The first thread misses the broadcast between
its test and its wait: nobody has a step, and `main` waits for it. -/
theorem worker_sleeps_on : ∃ s : State allFuncs, (runs allFuncs 10).Reachable s ∧ Told s ∧
    Quiescent (prog 10 (tids allFuncs)) s ∧ (s.th (thread 0)).WaitsOn .cond ∧ ¬ Stopped s := by
  obtain ⟨s, hs, hmain, h0, h1, h2, h3⟩ : ∃ s : State allFuncs,
      replay (prog 10 (tids allFuncs)) (start allFuncs) (begins ++ tells ++ sleeps) = some s ∧
      s.th none = .run (.join [thread 0, thread 1, thread 2, thread 3]) ∧
      s.th (thread 0) = .waiting .cond .mtx (.print ⟨"Thread 1", .func1⟩) ∧
      s.th (thread 1) = .run .returned ∧ s.th (thread 2) = .run .returned ∧
      s.th (thread 3) = .run .returned :=
    ⟨_, rfl, rfl, rfl, rfl, rfl, rfl⟩
  have hop : prog (S := Empty) 10 (tids allFuncs)
      (.join [thread 0, thread 1, thread 2, thread 3]) =
        .join (thread 0) (.joined (thread 0) [thread 1, thread 2, thread 3]) := rfl
  have hfirst : ∀ l, s.th (thread 0) = .run l →
      prog (S := Empty) 10 (tids allFuncs) l ≠ .exit := by
    rw [h0]
    nofun
  refine ⟨s, replay_reachable _ (.init rfl) hs, .inl ⟨_, hmain⟩, fun t s' hst => ?_, ?_,
    fun hstopped => ?_⟩
  · rcases t with _ | i
    · exact (Stalled.join hmain hop hfirst).not_step s' hst
    · change Fin 4 at i
      fin_cases i
      · exact (Stalled.asleep (t := thread 0) (by rw [h0]; trivial)).not_step s' hst
      · exact (Stalled.done h1 rfl).not_step s' hst
      · exact (Stalled.done h2 rfl).not_step s' hst
      · exact (Stalled.done h3 rfl).not_step s' hst
  · rw [h0]
    rfl
  · have hreturned : s.th (thread 0) = .run .returned := hstopped.2 _
    rw [h0] at hreturned
    cases hreturned

end MyCond
end OSNetWorkCode
