/-
# Where the threads stand after a step

The place of a thread is where it is, or where it returns to when its wait is over.
One step takes one thread along one call, and puts at most one more thread at the
start of its routine; everybody else stays (`Step.quiet_or_act`).  Three rules follow.

* A set of places is `Closed` if no call leads out of it: a thread in it stays there
  (`Closed.step`), whatever the others do.
* A mark of the places is `Steady` if only accesses change it: every other step leaves
  the marks of all threads (`Steady.quiet`).
* A thread comes to some places only by finding something in the shared data that stays
  there: it is known at these places from then on, without a mutex (`Learns.known`).
-/

import OSNetWorkCode.Pthread.Locks

namespace OSNetWorkCode
namespace Pthread

variable {T M S C D L I E β : Type*}

/-- The place a thread is at or returns to. -/
def Status.place : Status M C L → Option L
  | .unborn => none
  | .run l | .waiting _ _ l | .woken _ l => some l

/-- A delivered wake-up leaves the place a thread returns to. -/
theorem Status.place_wakeUp (st : Status M C L) : st.wakeUp.place = st.place := by
  cases st <;> rfl

/-- A thread that is nowhere is one that was not started yet. -/
theorem Status.place_eq_none {st : Status M C L} : st.place = none ↔ st = .unborn := by
  cases st <;> simp [place]

/-- How a call other than an access moves the threads: its own along the call,
a new one to its start. -/
inductive Moves (P : L → Op T M S C D L I E) (s : St T M S C D L E) (t u : T) :
    Option L → Prop
  | stays : Moves P s t u (s.th u).place
  | goes {l k} (ht : s.th t = .run l) (hu : u = t) (hact : ∀ f, P l ≠ .act f)
      (hk : (P l).Leads k) : Moves P s t u (some k)
  | begins {l start k} (ht : s.th t = .run l) (hop : P l = .create start k)
      (hu : s.th u = .unborn) : Moves P s t u (some start)

/-- A step that is no access: data and events stay, and the threads move along
its call. -/
structure Quiet (P : L → Op T M S C D L I E) (s : St T M S C D L E) (t : T)
    (s' : St T M S C D L E) : Prop where
  data : s'.data = s.data
  log : s'.log = s.log
  moves : ∀ u, Moves P s t u (s'.th u).place

section rules

variable [DecidableEq T] [DecidableEq M] [DecidableEq S]
variable {P : L → Op T M S C D L I E} {s s' : St T M S C D L E} {t u : T}

omit [DecidableEq M] [DecidableEq S] in
/-- A thread goes on from where it runs: it comes to the place its call leads
to, also if it falls asleep there, and nobody else moves. -/
theorem moves_put {l k : L} (hl : s.th t = .run l) (hact : ∀ f, P l ≠ .act f)
    (hk : (P l).Leads k) {st : Status M C L} (hst : st.place = some k) (u : T) :
    Moves P s t u ((s.put t st).th u).place := by
  by_cases hu : u = t
  · subst hu
    rw [St.put_th, Function.update_self, hst]
    exact .goes hl rfl hact hk
  · rw [St.put_th, Function.update_of_ne hu]
    exact .stays

omit [DecidableEq M] [DecidableEq S] in
/-- The same after some sleepers were woken, which leaves their places.  So a
signal moves the thread that signals and no other. -/
theorem moves_wake_put {l k : L} (hl : s.th t = .run l) (hact : ∀ f, P l ≠ .act f)
    (hk : (P l).Leads k) (ws : Finset T) (u : T) :
    Moves P s t u (((s.wake ws).put t (.run k)).th u).place := by
  by_cases hu : u = t
  · subst hu
    rw [St.put_th, Function.update_self]
    exact .goes hl rfl hact hk
  · have hplace : ((s.wake ws).th u).place = (s.th u).place := by
      rw [St.wake_th]
      split_ifs
      · exact Status.place_wakeUp _
      · rfl
    rw [St.put_th, Function.update_of_ne hu, hplace]
    exact .stays

/-- **A step is quiet or an access.**  All that a place can say without the
shared data is kept by a quiet step; the accesses are what each program has to
look at. -/
theorem Step.quiet_or_act (hs : Step P s t s') :
    Quiet P s t s' ∨ ∃ l f i d k e, s.th t = .run l ∧ P l = .act f ∧
      f i s.data = some (.next d k e) ∧ s' = (s.record t d e).put t (.run k) := by
  cases hs with
  | lock hl ho hm =>
    exact .inl ⟨rfl, rfl, moves_put hl (by rw [ho]; nofun) (by rw [ho]; rfl) rfl⟩
  | unlock hl ho hm =>
    exact .inl ⟨rfl, rfl, moves_put hl (by rw [ho]; nofun) (by rw [ho]; rfl) rfl⟩
  | condWait hl ho hm =>
    exact .inl ⟨rfl, rfl, moves_put hl (by rw [ho]; nofun) (by rw [ho]; rfl) rfl⟩
  | @reacquire m k hl hm =>
    refine .inl ⟨rfl, rfl, fun u => ?_⟩
    have hplace : ((s.put t (.run k)).th u).place = (s.th u).place := by
      by_cases hu : u = t
      · subst hu
        rw [St.put_th, Function.update_self, hl]
        rfl
      · rw [St.put_th, Function.update_of_ne hu]
    show Moves P s t u ((s.put t (.run k)).th u).place
    rw [hplace]
    exact .stays
  | condSignal ws hl ho hws hne =>
    exact .inl ⟨rfl, rfl, moves_wake_put hl (by rw [ho]; nofun) (by rw [ho]; rfl) ws⟩
  | condBroadcast ws hl ho hws =>
    exact .inl ⟨rfl, rfl, moves_wake_put hl (by rw [ho]; nofun) (by rw [ho]; rfl) ws⟩
  | semWait hl ho hx =>
    exact .inl ⟨rfl, rfl, moves_put hl (by rw [ho]; nofun) (by rw [ho]; exact .inl rfl) rfl⟩
  | semIntr hl ho =>
    exact .inl ⟨rfl, rfl, moves_put hl (by rw [ho]; nofun) (by rw [ho]; exact .inr rfl) rfl⟩
  | semPost hl ho =>
    exact .inl ⟨rfl, rfl, moves_put hl (by rw [ho]; nofun) (by rw [ho]; rfl) rfl⟩
  | @create l start k v hl ho hv =>
    refine .inl ⟨rfl, rfl, fun u => ?_⟩
    by_cases hut : u = t
    · subst hut
      rw [St.put_th, Function.update_self]
      exact .goes hl rfl (by rw [ho]; nofun) (by rw [ho]; rfl)
    · rw [St.put_th, Function.update_of_ne hut, St.put_th]
      by_cases huv : u = v
      · subst huv
        rw [Function.update_self]
        exact .begins hl ho hv
      · rw [Function.update_of_ne huv]
        exact .stays
  | join hl ho hv he =>
    exact .inl ⟨rfl, rfl, moves_put hl (by rw [ho]; nofun) (by rw [ho]; rfl) rfl⟩
  | @act l f i d k e hl ho hf => exact .inr ⟨l, f, i, d, k, e, hl, ho, hf, rfl⟩

/-- What the call of `t` at the place where it runs makes of the state. -/
def Op.Makes (P : L → Op T M S C D L I E) (s : St T M S C D L E) (t : T)
    (s' : St T M S C D L E) : Op T M S C D L I E → Prop
  | .lock m k => s.owner m = none ∧ s' = (s.setOwner m (some t)).put t (.run k)
  | .unlock m k => s.owner m = some t ∧ s' = (s.setOwner m none).put t (.run k)
  | .condWait c m k => s.owner m = some t ∧ s' = (s.setOwner m none).put t (.waiting c m k)
  | .condSignal c k => ∃ ws : Finset T, (∀ w ∈ ws, (s.th w).WaitsOn c) ∧
      ((∃ w, (s.th w).WaitsOn c) → ws.Nonempty) ∧ s' = (s.wake ws).put t (.run k)
  | .condBroadcast c k => ∃ ws : Finset T, (∀ w, w ∈ ws ↔ (s.th w).WaitsOn c) ∧
      s' = (s.wake ws).put t (.run k)
  | .semWait x k intr => (∃ v, s.sem x = v + 1 ∧ s' = (s.setSem x v).put t (.run k)) ∨
      ∃ k', intr = some k' ∧ s' = s.put t (.run k')
  | .semPost x k => s' = (s.setSem x (s.sem x + 1)).put t (.run k)
  | .create start k => ∃ u, s.th u = .unborn ∧ s' = (s.put u (.run start)).put t (.run k)
  | .join u k => ∃ l, s.th u = .run l ∧ P l = .exit ∧ s' = s.put t (.run k)
  | .act f => ∃ i d k ev, f i s.data = some (.next d k ev) ∧ s' = (s.record t d ev).put t (.run k)
  | .exit => False

/-- **A thread that runs makes the call of its place.**  For a program this
turns the rules of `Step` into one equation for each place, which `simp` reads
off. -/
theorem Step.makes {l : L} (hs : Step P s t s') (hl : s.th t = .run l) :
    (P l).Makes P s t s' := by
  have hsame : ∀ {l'}, s.th t = .run l' → l' = l := fun hl' =>
    (Status.run.inj (hl.symm.trans hl')).symm
  cases hs with
  | lock hl' ho hm | unlock hl' ho hm | condWait hl' ho hm =>
    obtain rfl := hsame hl'
    rw [ho]
    exact ⟨hm, rfl⟩
  | reacquire hl' hm =>
    rw [hl] at hl'
    cases hl'
  | condSignal ws hl' ho hws hne =>
    obtain rfl := hsame hl'
    rw [ho]
    exact ⟨ws, hws, hne, rfl⟩
  | condBroadcast ws hl' ho hws =>
    obtain rfl := hsame hl'
    rw [ho]
    exact ⟨ws, hws, rfl⟩
  | semWait hl' ho hx =>
    obtain rfl := hsame hl'
    rw [ho]
    exact .inl ⟨_, hx, rfl⟩
  | semIntr hl' ho =>
    obtain rfl := hsame hl'
    rw [ho]
    exact .inr ⟨_, rfl, rfl⟩
  | semPost hl' ho =>
    obtain rfl := hsame hl'
    rw [ho]
    rfl
  | create hl' ho hu =>
    obtain rfl := hsame hl'
    rw [ho]
    exact ⟨_, hu, rfl⟩
  | join hl' ho hu he =>
    obtain rfl := hsame hl'
    rw [ho]
    exact ⟨_, hu, he, rfl⟩
  | act hl' ho hf =>
    obtain rfl := hsame hl'
    rw [ho]
    exact ⟨_, _, _, _, hf, rfl⟩

/-- A thread that runs goes on along its call, if it does not fall asleep.  It
runs in the state after, at one of the places the call may return at. -/
theorem Step.leads {l : L} (hs : Step P s t s') (hl : s.th t = .run l)
    (hwait : ∀ c m k, P l ≠ .condWait c m k) : ∃ k, s'.th t = .run k ∧ (P l).Leads k := by
  have hput : ∀ (r : St T M S C D L E) k, (r.put t (.run k)).th t = .run k := fun r k => by
    rw [St.put_th, Function.update_self]
  have hmakes := hs.makes hl
  generalize P l = o at hmakes hwait
  cases o with
  | lock m k | unlock m k =>
    obtain ⟨-, rfl⟩ := hmakes
    exact ⟨k, hput _ k, rfl⟩
  | condWait c m k => exact absurd rfl (hwait c m k)
  | condSignal c k =>
    obtain ⟨ws, -, -, rfl⟩ := hmakes
    exact ⟨k, hput _ k, rfl⟩
  | condBroadcast c k =>
    obtain ⟨ws, -, rfl⟩ := hmakes
    exact ⟨k, hput _ k, rfl⟩
  | semWait x k intr =>
    rcases hmakes with ⟨v, -, rfl⟩ | ⟨k', hk', rfl⟩
    · exact ⟨k, hput _ k, .inl rfl⟩
    · exact ⟨k', hput _ k', .inr hk'⟩
  | semPost x k =>
    obtain rfl : s' = _ := hmakes
    exact ⟨k, hput _ k, rfl⟩
  | create start k =>
    obtain ⟨u, -, rfl⟩ := hmakes
    exact ⟨k, hput _ k, rfl⟩
  | join u k =>
    obtain ⟨l', -, -, rfl⟩ := hmakes
    exact ⟨k, hput _ k, rfl⟩
  | act f =>
    obtain ⟨i, d, k, ev, hf, rfl⟩ := hmakes
    exact ⟨k, hput _ k, i, _, d, ev, hf⟩
  | exit => exact hmakes.elim

/-- A thread that runs is moved by its own steps only: neither waking nor
starting concerns it. -/
theorem Step.run_stays {l : L} (hs : Step P s t s') (hut : u ≠ t) (hu : s.th u = .run l) :
    s'.th u = .run l := by
  cases hs with
  | condSignal ws hl ho hws hne | condBroadcast ws hl ho hws =>
    rw [St.put_th, Function.update_of_ne hut]
    exact St.wake_th_run _ _ _ hu
  | @create _ start k v hl ho hv =>
    have huv : u ≠ v := by
      rintro rfl
      rw [hu] at hv
      cases hv
    rw [St.put_th, Function.update_of_ne hut, St.put_th, Function.update_of_ne huv, hu]
  | _ =>
    rw [St.put_th, Function.update_of_ne hut]
    exact hu

omit [DecidableEq M] [DecidableEq S] in
/-- A spurious wake-up leaves every place, that of the thread it wakes too. -/
theorem Wake.place (hw : Wake s t s') (u : T) : (s'.th u).place = (s.th u).place := by
  obtain ⟨hl⟩ := hw
  by_cases hu : u = t
  · subst hu
    rw [St.put_th, Function.update_self, hl]
    rfl
  · rw [St.put_th, Function.update_of_ne hu]

/-! ### Sets of places that no call leads out of -/

/-- The place of a thread is in `K`. -/
def Status.In (K : L → Prop) (st : Status M C L) : Prop := ∃ l, st.place = some l ∧ K l

/-- No call leads out of `K`. -/
def Closed (P : L → Op T M S C D L I E) (K : L → Prop) : Prop :=
  ∀ {l k}, K l → (P l).Leads k → K k

variable {K : L → Prop}

/-- **A thread stays in a set of places that no call leads out of,** whatever
the others do.  It says of a thread what kind it is: producer or consumer,
`main` or worker. -/
theorem Closed.step (H : Closed P K) (hs : Step P s t s') (hu : (s.th u).In K) :
    (s'.th u).In K := by
  obtain ⟨l₀, hplace, hl₀⟩ := hu
  have hrun : ∀ {l}, s.th t = .run l → u = t → l = l₀ := by
    rintro l hl rfl
    rw [hl] at hplace
    exact Option.some.inj hplace
  rcases hs.quiet_or_act with hq | ⟨l, f, i, d, k, e, hl, ho, hf, rfl⟩
  · have hmoves := hq.moves u
    generalize hk : (s'.th u).place = p at hmoves
    cases hmoves with
    | stays => exact ⟨l₀, hk.trans hplace, hl₀⟩
    | goes ht hut hact hlk =>
      obtain rfl := hrun ht hut
      exact ⟨_, hk, H hl₀ hlk⟩
    | begins ht hop hunborn =>
      rw [hunborn] at hplace
      cases hplace
  · by_cases hut : u = t
    · obtain rfl := hrun hl hut
      subst hut
      refine ⟨k, ?_, H hl₀ (by rw [ho]; exact ⟨i, _, _, _, hf⟩)⟩
      rw [St.put_th, Function.update_self]
      rfl
    · refine ⟨l₀, ?_, hl₀⟩
      rw [St.put_th, Function.update_of_ne hut]
      exact hplace

/-- The same for a step of the system, spurious wake-ups included. -/
theorem Closed.system_step (H : Closed P K) {init : St T M S C D L E → Prop}
    (hs : (system P init).step s s') (hu : (s.th u).In K) : (s'.th u).In K := by
  obtain ⟨t, hst | hw⟩ := hs
  · exact H.step hst hu
  · obtain ⟨l, hplace, hl⟩ := hu
    exact ⟨l, (hw.place u).trans hplace, hl⟩

/-- The same in every reachable state, for a thread that begins in `K`. -/
theorem Closed.reachable (H : Closed P K) {init : St T M S C D L E → Prop}
    (hinit : ∀ s, init s → (s.th u).In K) (hs : (system P init).Reachable s) : (s.th u).In K := by
  refine hs.invariant (I := fun s => (s.th u).In K) hinit ?_
  intro s s' _ hu hstep
  exact H.system_step hstep hu

/-- **A thread that is started in `K` stays there.**  Before it is started it
is nowhere; who starts it need not be in `K`. -/
theorem Closed.born (H : Closed P K)
    (hstart : ∀ {l start k}, P l = .create start k → K start) {init : St T M S C D L E → Prop}
    (hinit : ∀ s, init s → s.th u = .unborn ∨ (s.th u).In K) (hs : (system P init).Reachable s) :
    s.th u = .unborn ∨ (s.th u).In K := by
  refine hs.invariant (I := fun s => s.th u = .unborn ∨ (s.th u).In K) hinit ?_
  intro s s' _ hu hstep
  rcases hu with hu | hu
  · obtain ⟨t, hst | hw⟩ := hstep
    · rcases hst.quiet_or_act with hq | ⟨l, f, i, d, k, e, hl, ho, hf, rfl⟩
      · have hmoves := hq.moves u
        generalize hp : (s'.th u).place = p at hmoves
        cases hmoves with
        | stays =>
          rw [hu] at hp
          exact .inl (Status.place_eq_none.1 hp)
        | goes ht hut hact hk =>
          rw [hut, ht] at hu
          cases hu
        | begins ht hop hunborn => exact .inr ⟨_, hp, hstart hop⟩
      · have hut : u ≠ t := by
          rintro rfl
          rw [hl] at hu
          cases hu
        rw [St.put_th, Function.update_of_ne hut]
        exact .inl hu
    · have hplace := hw.place u
      rw [hu] at hplace
      exact .inl (Status.place_eq_none.1 hplace)
  · exact .inr (H.system_step hstep hu)

/-- Where some thread begins in `K`, some thread is in `K` for good.  It is the
same thread, but which one it is the states of a run need not tell. -/
theorem Closed.exists_in (H : Closed P K) {init : St T M S C D L E → Prop}
    (hinit : ∀ s, init s → ∃ t, (s.th t).In K) (hs : (system P init).Reachable s) :
    ∃ t, (s.th t).In K := by
  refine hs.invariant (I := fun s => ∃ t, (s.th t).In K) hinit ?_
  rintro s s' - ⟨t, ht⟩ hstep
  exact ⟨t, H.system_step hstep ht⟩

omit [DecidableEq T] [DecidableEq M] [DecidableEq S] in
/-- A thread asleep fell asleep at a call of the program, and returns to its
place.  So its place tells which condition variable it sleeps on. -/
theorem Owned.asleep_in {holds : L → M → Prop} (h : Owned P holds s) (hin : (s.th t).In K)
    (hasleep : (s.th t).Asleep) :
    ∃ l c m k, s.th t = .waiting c m k ∧ P l = .condWait c m k ∧ K k := by
  cases hst : s.th t with
  | waiting c m k =>
    rw [hst] at hin
    obtain ⟨l, hop⟩ := h.waiting hst
    obtain ⟨k', hk', hK⟩ := hin
    cases hk'
    exact ⟨l, c, m, k, rfl, hop, hK⟩
  | _ =>
    rw [hst] at hasleep
    exact hasleep.elim

/-- A thread that is alive at the start is alive for good: it may end, but it
is not unborn again. -/
theorem alive {init : St T M S C D L E → Prop} (hinit : ∀ s, init s → s.th u ≠ .unborn)
    (hs : (system P init).Reachable s) : s.th u ≠ .unborn := by
  have hclosed : Closed P (fun _ => True) := fun _ _ => trivial
  have hin : (s.th u).In (fun _ => True) := by
    refine hclosed.reachable (fun s h => ?_) hs
    have hu := hinit s h
    cases hst : s.th u with
    | unborn => exact absurd hst hu
    | run l | waiting c m l | woken m l => exact ⟨l, rfl, trivial⟩
  intro hst
  obtain ⟨l, hplace, -⟩ := hin
  rw [hst] at hplace
  cases hplace

/-! ### Marks that only accesses change -/

/-- The mark of a thread: that of its place. -/
def Status.mark (mark : L → Option β) (st : Status M C L) : Option β := st.place.bind mark

/-- Calls other than accesses leave the mark, and a new thread has none. -/
structure Steady (P : L → Op T M S C D L I E) (mark : L → Option β) : Prop where
  stay : ∀ {l k}, (∀ f, P l ≠ .act f) → (P l).Leads k → mark k = mark l
  create : ∀ {l start k}, P l = .create start k → mark start = none

omit [DecidableEq T] [DecidableEq M] [DecidableEq S] in
/-- **A quiet step leaves the marks of all threads.**  So a mark has to be
followed through the accesses of the program alone. -/
theorem Steady.quiet {mark : L → Option β} (H : Steady P mark) (hq : Quiet P s t s') (u : T) :
    (s'.th u).mark mark = (s.th u).mark mark := by
  have hmoves := hq.moves u
  unfold Status.mark
  generalize (s'.th u).place = p at hmoves
  cases hmoves with
  | stays => rfl
  | goes ht hut hact hk =>
    rw [hut, ht]
    exact H.stay hact hk
  | begins ht hop hunborn =>
    rw [hunborn]
    exact H.create hop

omit [DecidableEq M] [DecidableEq S] in
/-- An access changes the mark of its thread to that of the place it leads to,
and no other. -/
theorem mark_put (mark : L → Option β) (t u : T) (k : L) :
    ((s.put t (.run k)).th u).mark mark = if u = t then mark k else (s.th u).mark mark := by
  by_cases hu : u = t
  · subst hu
    rw [St.put_th, Function.update_self, if_pos rfl]
    rfl
  · rw [St.put_th, Function.update_of_ne hu, if_neg hu]

/-! ### What a thread has learned -/

/-- A thread comes to the places `K` only by accesses that find `Q` of the
data, or is started by one that stands there; no access takes `Q` away. -/
structure Learns (P : L → Op T M S C D L I E) (K : L → Prop) (Q : D → Prop) : Prop where
  stay : ∀ {l k}, (∀ f, P l ≠ .act f) → (P l).Leads k → K k → K l
  create : ∀ {l start k}, P l = .create start k → K start → K l
  act : ∀ {l f i d d' k e}, P l = .act f → f i d = some (.next d' k e) → K k → K l ∨ Q d'
  stable : ∀ {l f i d d' k e}, P l = .act f → f i d = some (.next d' k e) → Q d → Q d'

/-- **What a thread has learned stays true.**  It was true when the thread came
to these places, and no access of anybody takes it away; no mutex is needed for
that. -/
theorem Learns.known {Q : D → Prop} (H : Learns P K Q) {init : St T M S C D L E → Prop}
    (hinit : ∀ s t, init s → ¬ (s.th t).In K) (hs : (system P init).Reachable s) :
    ∀ u, (s.th u).In K → Q s.data := by
  refine hs.invariant (I := fun s => ∀ u, (s.th u).In K → Q s.data)
    (fun s h u hu => absurd hu (hinit s u h)) ?_
  rintro s s' - hQ ⟨t, hst | hw⟩ u ⟨k, hplace, hk⟩
  · rcases hst.quiet_or_act with hq | ⟨l, f, i, d, k', e, hl, ho, hf, rfl⟩
    · rw [hq.data]
      have hmoves := hq.moves u
      generalize hp : (s'.th u).place = p at hmoves
      rw [hp] at hplace
      cases hmoves with
      | stays => exact hQ u ⟨k, hplace, hk⟩
      | goes ht hut hact hlk =>
        cases hplace
        exact hQ t ⟨_, by rw [ht]; rfl, H.stay hact hlk hk⟩
      | begins ht hop hunborn =>
        cases hplace
        exact hQ t ⟨_, by rw [ht]; rfl, H.create hop hk⟩
    · by_cases hut : u = t
      · subst hut
        rw [St.put_th, Function.update_self] at hplace
        cases hplace
        rcases H.act ho hf hk with hK | hQd
        · exact H.stable ho hf (hQ u ⟨l, by rw [hl]; rfl, hK⟩)
        · exact hQd
      · rw [St.put_th, Function.update_of_ne hut] at hplace
        exact H.stable ho hf (hQ u ⟨k, hplace, hk⟩)
  · have hQu := hQ u ⟨k, (hw.place u).symm.trans hplace, hk⟩
    obtain ⟨-⟩ := hw
    exact hQu

end rules

end Pthread
end OSNetWorkCode
