/-
# Who owns a mutex is written in the program

A program written with scoped locks says at each control point which mutexes
the thread standing there owns.  `holds l m` is that annotation, and `Locks P
holds` says that the calls of `P` agree with it: a mutex is not locked twice,
it is unlocked and waited with only where it is owned, a new thread starts with
none, and no other call changes what is owned.

`Locks.owned` then turns the run-time fact "`m` is owned by `t`" into the
static one "`t` stands where `m` is held", in every reachable state.  Two
threads standing where `m` is held are the same thread (`Owned.exclusive`).
-/

import OSNetWorkCode.Pthread.Machine

namespace OSNetWorkCode
namespace Pthread

open Function

variable {T M S C D L I E : Type*}

/-- `k` is a control point at which the call may return. -/
def Op.Leads (o : Op T M S C D L I E) (k : L) : Prop :=
  match o with
  | .lock _ k' | .unlock _ k' | .condWait _ _ k' | .condSignal _ k' | .condBroadcast _ k'
  | .semPost _ k' | .create _ k' | .join _ k' => k = k'
  | .semWait _ k' intr => k = k' ∨ intr = some k
  | .act f => ∃ i d d' ev, f i d = some (.next d' k ev)
  | .exit => False

/-- The mutexes owned after the call, where `h` were owned before it. -/
def Op.held (o : Op T M S C D L I E) (h : M → Prop) : M → Prop :=
  match o with
  | .lock m _ => fun m' => m' = m ∨ h m'
  | .unlock m _ => fun m' => m' ≠ m ∧ h m'
  | _ => h

/-- The annotation `holds` agrees with the calls of `P`. -/
structure Locks (P : L → Op T M S C D L I E) (holds : L → M → Prop) : Prop where
  lock : ∀ {l m k}, P l = .lock m k → ¬ holds l m
  unlock : ∀ {l m k}, P l = .unlock m k → holds l m
  condWait : ∀ {l c m k}, P l = .condWait c m k → holds l m
  create : ∀ {l start k}, P l = .create start k → ∀ m, ¬ holds start m
  leads : ∀ {l k}, (P l).Leads k → ∀ m, holds k m ↔ (P l).held (holds l) m

/-- The annotation of a status: a thread asleep in `pthread_cond_wait`, or
woken there, owns what it will own when it returns, less the mutex it gave
back. -/
def Status.Holds (holds : L → M → Prop) : Status M C L → M → Prop
  | .unborn, _ => False
  | .run l, m => holds l m
  | .waiting _ m' k, m => m ≠ m' ∧ holds k m
  | .woken m' k, m => m ≠ m' ∧ holds k m

/-- A thread in `pthread_cond_wait` got there by a call of the program. -/
def Status.Entered (P : L → Op T M S C D L I E) : Status M C L → Prop
  | .waiting c m k => ∃ l, P l = .condWait c m k
  | .woken m k => ∃ l c, P l = .condWait c m k
  | _ => True

/-- A delivered wake-up gives no mutex: the thread owns what it owned asleep,
until it takes the mutex again. -/
theorem Status.holds_wakeUp (holds : L → M → Prop) (st : Status M C L) (m : M) :
    st.wakeUp.Holds holds m ↔ st.Holds holds m := by
  cases st <;> rfl

/-- A thread woken in a wait got there by the same call as when it slept. -/
theorem Status.Entered.wakeUp {P : L → Op T M S C D L I E} {st : Status M C L}
    (h : st.Entered P) : st.wakeUp.Entered P := by
  cases st with
  | waiting c m k =>
    obtain ⟨l, hl⟩ := h
    exact ⟨l, c, hl⟩
  | _ => exact h

/-- Where `pthread_cond_wait` returns, the same mutexes are held as where it
was called.  It gives one back in between, and takes it again before it
returns. -/
theorem Locks.returns {P : L → Op T M S C D L I E} {holds : L → M → Prop} (H : Locks P holds)
    {l c m k} (ho : P l = .condWait c m k) (m' : M) : holds k m' ↔ holds l m' := by
  rw [H.leads (show (P l).Leads k by rw [ho]; rfl) m', ho]
  rfl

/-- Owners and annotations agree. -/
structure Owned (P : L → Op T M S C D L I E) (holds : L → M → Prop) (s : St T M S C D L E) :
    Prop where
  owner : ∀ m t, s.owner m = some t ↔ (s.th t).Holds holds m
  entered : ∀ t, (s.th t).Entered P

/-- **Mutual exclusion.**  Two threads that own the same mutex are one thread.
With `Locks.owned` it says that no two threads stand in a critical section
together. -/
theorem Owned.exclusive {P : L → Op T M S C D L I E} {holds : L → M → Prop}
    {s : St T M S C D L E} (h : Owned P holds s) {m : M} {u v : T}
    (hu : (s.th u).Holds holds m) (hv : (s.th v).Holds holds m) : u = v :=
  Option.some.inj (((h.owner m u).2 hu).symm.trans ((h.owner m v).2 hv))

/-- A thread asleep in a wait called it, at some place of the program: its
condition variable and its mutex are those of that call. -/
theorem Owned.waiting {P : L → Op T M S C D L I E} {holds : L → M → Prop}
    {s : St T M S C D L E} (h : Owned P holds s) {t : T} {c : C} {m : M} {k : L}
    (hl : s.th t = .waiting c m k) : ∃ l, P l = .condWait c m k := by
  have hentered := h.entered t
  rwa [hl] at hentered

/-- So did a thread woken there, though its status does not tell the condition
variable any more. -/
theorem Owned.woken {P : L → Op T M S C D L I E} {holds : L → M → Prop}
    {s : St T M S C D L E} (h : Owned P holds s) {t : T} {m : M} {k : L}
    (hl : s.th t = .woken m k) : ∃ l c, P l = .condWait c m k := by
  have hentered := h.entered t
  rwa [hl] at hentered

section steps

variable [DecidableEq T] {P : L → Op T M S C D L I E} {holds : L → M → Prop}
variable {s : St T M S C D L E}

/-- A thread that keeps what it owns keeps owners and annotations in agreement,
wherever it goes. -/
theorem Owned.put (h : Owned P holds s) {t : T} {st : Status M C L} (he : st.Entered P)
    (hst : ∀ m, st.Holds holds m ↔ (s.th t).Holds holds m) : Owned P holds (s.put t st) where
  owner m u := by
    by_cases hu : u = t
    · subst hu
      simpa [hst] using h.owner m u
    · simpa [hu] using h.owner m u
  entered u := by
    by_cases hu : u = t
    · subst hu
      simpa using he
    · simpa [hu] using h.entered u

/-- Waking sleepers changes no owner: who is woken has to take its mutex like
anybody else. -/
theorem Owned.wake (h : Owned P holds s) (ws : Finset T) : Owned P holds (s.wake ws) where
  owner m u := by
    rw [St.wake_th]
    split_ifs
    · rw [Status.holds_wakeUp]
      exact h.owner m u
    · exact h.owner m u
  entered u := by
    rw [St.wake_th]
    split_ifs
    · exact (h.entered u).wakeUp
    · exact h.entered u

omit [DecidableEq T] in
/-- An access to the data changes no owner. -/
theorem Owned.record (h : Owned P holds s) (t : T) (d : D) (ev : List E) :
    Owned P holds (s.record t d ev) :=
  ⟨h.owner, h.entered⟩

omit [DecidableEq T] in
/-- A permit taken or given changes no owner. -/
theorem Owned.setSem [DecidableEq S] (h : Owned P holds s) (x : S) (v : ℕ) :
    Owned P holds (s.setSem x v) :=
  ⟨h.owner, h.entered⟩

variable [DecidableEq M]

/-- A thread that takes the free mutex `m`.  Nobody owned it, so that no other
thread is at a place where it is held. -/
theorem Owned.acquire (h : Owned P holds s) {t : T} {m : M} {k : L} (hm : s.owner m = none)
    (hk : ∀ m', holds k m' ↔ m' = m ∨ (s.th t).Holds holds m') :
    Owned P holds ((s.setOwner m (some t)).put t (.run k)) where
  owner m' u := by
    have hfree : ∀ v, ¬ (s.th v).Holds holds m := fun v hv => by
      rw [(h.owner m v).2 hv] at hm
      cases hm
    by_cases hu : u = t
    · subst hu
      by_cases hm' : m' = m
      · simp [Status.Holds, hk, hm']
      · simpa [Status.Holds, hk, hm'] using h.owner m' u
    · by_cases hm' : m' = m
      · subst hm'
        simp [hu, hfree, Ne.symm hu]
      · simpa [hu, hm'] using h.owner m' u
  entered u := by
    by_cases hu : u = t
    · subst hu
      simp [Status.Entered]
    · simpa [hu] using h.entered u

/-- A thread that gives the mutex `m` back, by unlocking it or by falling
asleep with it.  It is the owner, so that no other thread is concerned. -/
theorem Owned.release (h : Owned P holds s) {t : T} {m : M} {st : Status M C L}
    (hm : s.owner m = some t) (he : st.Entered P)
    (hk : ∀ m', st.Holds holds m' ↔ m' ≠ m ∧ (s.th t).Holds holds m') :
    Owned P holds ((s.setOwner m none).put t st) where
  owner m' u := by
    by_cases hu : u = t
    · subst hu
      by_cases hm' : m' = m
      · simp [hk, hm']
      · simpa [hk, hm'] using h.owner m' u
    · by_cases hm' : m' = m
      · subst hm'
        have hnot : ¬ (s.th u).Holds holds m' := fun hv => by
          rw [(h.owner m' u).2 hv] at hm
          exact hu (Option.some.inj hm)
        simp [hu, hnot]
      · simpa [hu, hm'] using h.owner m' u
  entered u := by
    by_cases hu : u = t
    · subst hu
      simpa using he
    · simpa [hu] using h.entered u

end steps

section program

variable [DecidableEq T] [DecidableEq M] [DecidableEq S]
variable {P : L → Op T M S C D L I E} {holds : L → M → Prop} {s s' : St T M S C D L E} {t : T}

omit [DecidableEq T] [DecidableEq M] [DecidableEq S] in
/-- A call other than lock, unlock and wait leaves the annotation of the
caller: the place it leads to holds the same mutexes. -/
theorem Locks.run (H : Locks P holds) {l k : L} (hl : s.th t = .run l) (hk : (P l).Leads k)
    (hh : (P l).held (holds l) = holds l) (m : M) :
    (Status.run k : Status M C L).Holds holds m ↔ (s.th t).Holds holds m := by
  rw [hl, Status.Holds, H.leads hk m, hh]
  rfl

/-- **A step keeps owners and annotations in agreement.**  By cases on the
call; only taking a mutex and giving one back change an owner. -/
theorem Locks.step (H : Locks P holds) (h : Owned P holds s) (hs : Step P s t s') :
    Owned P holds s' := by
  cases hs with
  | lock hl ho hm =>
    refine h.acquire hm fun m' => ?_
    rw [H.leads (by rw [ho]; rfl) m', ho, hl]
    rfl
  | unlock hl ho hm =>
    refine h.release hm trivial fun m' => ?_
    rw [hl, Status.Holds, H.leads (by rw [ho]; rfl) m', ho]
    rfl
  | @condWait l c m k hl ho hm =>
    refine h.release hm ⟨l, ho⟩ fun m' => ?_
    rw [hl]
    exact and_congr_right fun _ => H.returns ho m'
  | @reacquire m k hl hm =>
    refine h.acquire hm fun m' => ?_
    obtain ⟨l, c, ho⟩ : ∃ l c, P l = .condWait c m k := by
      simpa [hl, Status.Entered] using h.entered t
    have hr : holds k m := (H.returns ho m).2 (H.condWait ho)
    rw [hl]
    by_cases hm' : m' = m
    · simp [hm', hr]
    · simp [hm', Status.Holds]
  | condSignal ws hl ho hws hne =>
    exact (h.wake _).put trivial
      (H.run (St.wake_th_run _ _ _ hl) (by rw [ho]; rfl) (by rw [ho]; rfl))
  | condBroadcast ws hl ho hws =>
    exact (h.wake _).put trivial
      (H.run (St.wake_th_run _ _ _ hl) (by rw [ho]; rfl) (by rw [ho]; rfl))
  | semWait hl ho hx =>
    exact (h.setSem _ _).put trivial (H.run hl (by rw [ho]; exact .inl rfl) (by rw [ho]; rfl))
  | semIntr hl ho =>
    exact h.put trivial (H.run hl (by rw [ho]; exact .inr rfl) (by rw [ho]; rfl))
  | semPost hl ho =>
    exact (h.setSem _ _).put trivial (H.run hl (by rw [ho]; rfl) (by rw [ho]; rfl))
  | @create l start k u hl ho hu =>
    have hut : t ≠ u := fun e => by
      rw [← e, hl] at hu
      cases hu
    have hborn : Owned P holds (s.put u (.run start)) :=
      h.put trivial fun m => by simp [hu, Status.Holds, H.create ho]
    refine hborn.put trivial (H.run ?_ (by rw [ho]; rfl) (by rw [ho]; rfl))
    simpa [hut] using hl
  | join hl ho hu he =>
    exact h.put trivial (H.run hl (by rw [ho]; rfl) (by rw [ho]; rfl))
  | act hl ho hf =>
    exact (h.record _ _ _).put trivial
      (H.run hl (by rw [ho]; exact ⟨_, _, _, _, hf⟩) (by rw [ho]; rfl))

omit [DecidableEq M] [DecidableEq S] in
/-- A spurious wake-up changes no owner, since who wakes up has to take the
mutex before it goes on. -/
theorem Owned.spurious (h : Owned P holds s) (hs : Wake s t s') : Owned P holds s' := by
  obtain ⟨hl⟩ := hs
  refine h.put ?_ fun m => by rw [hl]; rfl
  have he : (Status.waiting _ _ _).Entered P := hl ▸ h.entered t
  exact he.wakeUp

/-- **In every reachable state owners and annotations agree.**  So what a
thread owns can be read off the program, and critical sections can be spoken of
as sets of places. -/
theorem Locks.owned (H : Locks P holds) {init : St T M S C D L E → Prop}
    (hinit : ∀ s, init s → Owned P holds s) (hs : (system P init).Reachable s) :
    Owned P holds s := by
  refine hs.invariant hinit ?_
  rintro s s' - h ⟨t, hst | hst⟩
  · exact H.step h hst
  · exact h.spurious hst

end program

end Pthread
end OSNetWorkCode
