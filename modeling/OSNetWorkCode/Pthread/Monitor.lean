/-
# Data guarded by a mutex

Only an access to shared data changes the data or the record of events
(`Step.data_cases`), so a property of those two is kept as soon as every access
keeps it (`data_invariant`).

For data guarded by a mutex `m` more can be said of the places inside the
critical section than outside.  `Monitor P holds m free inside` collects what
has to be checked of the calls of `P`, one by one: `free` is what every thread
leaves behind when it gives `m` back, by unlocking it or by falling asleep on a
condition variable, and `inside l` is what holds while a thread stands at `l`
and owns `m`.  Accesses made without `m` must not disturb either.
`Monitor.inv` is the conclusion for every reachable state.
-/

import OSNetWorkCode.Pthread.Locks

namespace OSNetWorkCode
namespace Pthread

open Function

variable {T M S C D L I E : Type*}

/-- The call takes or gives back `m`, or accesses the data. -/
def Op.Touches (o : Op T M S C D L I E) (m : M) : Prop :=
  match o with
  | .lock m' _ | .unlock m' _ | .condWait _ m' _ => m' = m
  | .act _ => True
  | _ => False

/-- Each call of `P` keeps `free` and `inside`, the two halves of an invariant
of the data (and of the events) guarded by `m`. -/
structure Monitor (P : L → Op T M S C D L I E) (holds : L → M → Prop) (m : M)
    (free : D → List E → Prop) (inside : L → D → List E → Prop) : Prop where
  acquire : ∀ {l k d ev}, P l = .lock m k → free d ev → inside k d ev
  release : ∀ {l k d ev}, P l = .unlock m k → inside l d ev → free d ev
  sleep : ∀ {l c k d ev}, P l = .condWait c m k → inside l d ev → free d ev
  wake : ∀ {l c k d ev}, P l = .condWait c m k → free d ev → inside k d ev
  nested : ∀ {l c m' k}, P l = .condWait c m' k → holds l m → m' = m
  stay : ∀ {l k d ev}, holds l m → (P l).Leads k → ¬ (P l).Touches m → inside l d ev → inside k d ev
  act : ∀ {l f i d d' k e ev}, P l = .act f → holds l m → f i d = some (.next d' k e) →
    inside l d ev → inside k d' (ev ++ e)
  others_free : ∀ {l f i d d' k e ev}, P l = .act f → ¬ holds l m →
    f i d = some (.next d' k e) → free d ev → free d' (ev ++ e)
  others_inside : ∀ {l f i d d' k e ev l'}, P l = .act f → ¬ holds l m →
    f i d = some (.next d' k e) → holds l' m → inside l' d ev → inside l' d' (ev ++ e)

/-- The invariant of a monitor in a state. -/
structure Guarded (holds : L → M → Prop) (m : M) (free : D → List E → Prop)
    (inside : L → D → List E → Prop) (s : St T M S C D L E) : Prop where
  free : s.owner m = none → free s.data s.events
  inside : ∀ {t l}, s.th t = .run l → holds l m → inside l s.data s.events

section rules

variable [DecidableEq T] [DecidableEq M] [DecidableEq S]
variable {P : L → Op T M S C D L I E} {holds : L → M → Prop} {m : M}
variable {free : D → List E → Prop} {inside : L → D → List E → Prop}
variable {s s' : St T M S C D L E} {t : T}

/-- **Only an access changes the data and the events.**  So whatever is said of
these two alone has to be checked for the accesses of a program and for no
other call. -/
theorem Step.data_cases (h : Step P s t s') :
    (s'.data = s.data ∧ s'.log = s.log) ∨
      ∃ l f i d k e, s.th t = .run l ∧ P l = .act f ∧ f i s.data = some (.next d k e) ∧
        s' = (s.record t d e).put t (.run k) := by
  cases h with
  | act hl ho hf => exact .inr ⟨_, _, _, _, _, _, hl, ho, hf, rfl⟩
  | _ => exact .inl ⟨rfl, rfl⟩

/-- **A property of data and events that every access keeps.**  `R` is what is
known of the reachable states already, such as who owns which mutex. -/
theorem data_invariant {init : St T M S C D L E → Prop} {R : St T M S C D L E → Prop}
    {J : D → List E → Prop} (hR : ∀ s, (system P init).Reachable s → R s)
    (hinit : ∀ s, init s → J s.data s.events)
    (hact : ∀ {s : St T M S C D L E} {t l f i d k e}, R s → s.th t = .run l → P l = .act f →
      f i s.data = some (.next d k e) → J s.data s.events → J d (s.events ++ e))
    (hs : (system P init).Reachable s) : J s.data s.events := by
  refine hs.invariant (I := fun s => J s.data s.events) hinit ?_
  rintro s s' hr hJ ⟨t, hst | hw⟩
  · rcases hst.data_cases with ⟨hd, hl⟩ | ⟨l, f, i, d, k, e, hl, ho, hf, rfl⟩
    · rw [hd, St.events, hl]
      exact hJ
    · simpa using hact (hR s hr) hl ho hf hJ
  · obtain ⟨-⟩ := hw
    exact hJ

omit [DecidableEq M] [DecidableEq S] in
/-- A thread moves and leaves mutexes and data.  If it comes to a place inside,
what is said of that place has to hold. -/
theorem Guarded.put (h : Guarded holds m free inside s) {st : Status M C L}
    (hk : ∀ k, st = .run k → holds k m → inside k s.data s.events) :
    Guarded holds m free inside (s.put t st) where
  free hm := h.free hm
  inside {u l} hu hl := by
    by_cases hut : u = t
    · subst hut
      exact hk l (by simpa using hu) hl
    · exact h.inside (t := u) (by simpa [hut] using hu) hl

omit [DecidableEq M] [DecidableEq S] in
/-- Waking sleepers brings nobody inside: they have to take the mutex first. -/
theorem Guarded.wake (h : Guarded holds m free inside s) (ws : Finset T) :
    Guarded holds m free inside (s.wake ws) where
  free hm := h.free hm
  inside {u l} hu hl := by
    refine h.inside (t := u) ?_ hl
    rw [St.wake_th] at hu
    split_ifs at hu
    · cases hst : s.th u <;> rw [hst] at hu <;> first | exact hu | cases hu
    · exact hu

omit [DecidableEq T] [DecidableEq S] in
/-- The mutex `m` passes from one owner to the next, or some other mutex does.
Only where `m` becomes free something has to hold, namely `free`. -/
theorem Guarded.setOwner (h : Guarded holds m free inside s) {m' : M} {o : Option T}
    (hm : m' = m → o = none → free s.data s.events) :
    Guarded holds m free inside (s.setOwner m' o) where
  free hm' := by
    by_cases he : m' = m
    · subst he
      exact hm rfl (by simpa using hm')
    · exact h.free (by simpa [Ne.symm he] using hm')
  inside hu hl := h.inside hu hl

omit [DecidableEq T] [DecidableEq M] in
/-- Permits are not part of what a mutex guards. -/
theorem Guarded.setSem (h : Guarded holds m free inside s) (x : S) (v : ℕ) :
    Guarded holds m free inside (s.setSem x v) :=
  ⟨h.free, h.inside⟩

/-- **A step keeps the invariant of a monitor.**  The thread that moves is the
only one inside, by mutual exclusion, so that its access disturbs nobody else
who is. -/
theorem Monitor.step (H : Monitor P holds m free inside) (HL : Locks P holds)
    (ho : Owned P holds s) (h : Guarded holds m free inside s) (hs : Step P s t s') :
    Guarded holds m free inside s' := by
  have hstay : ∀ {l k}, s.th t = .run l → (P l).Leads k → ¬ (P l).Touches m →
      holds k m → inside k s.data s.events := fun {l k} hl hk hn hm => by
    have hlm : holds l m := by
      rw [HL.leads hk m] at hm
      revert hn hm
      cases P l <;> simp only [Op.Touches, Op.held] <;> tauto
    exact H.stay hlm hk hn (h.inside hl hlm)
  cases hs with
  | @lock l m' k hl hop hm =>
    refine (h.setOwner fun _ hn => by cases hn).put fun k' hk' hh => ?_
    cases hk'
    by_cases he : m' = m
    · subst he
      exact H.acquire hop (h.free hm)
    · exact hstay hl (by rw [hop]; rfl) (by rw [hop]; exact he) hh
  | @unlock l m' k hl hop hm =>
    refine (h.setOwner fun he _ => ?_).put fun k' hk' hh => ?_
    · subst he
      exact H.release hop (h.inside hl (HL.unlock hop))
    · cases hk'
      by_cases he : m' = m
      · subst he
        rw [HL.leads (l := l) (by rw [hop]; rfl), hop] at hh
        exact absurd rfl hh.1
      · exact hstay hl (by rw [hop]; rfl) (by rw [hop]; exact he) hh
  | @condWait l c m' k hl hop hm =>
    refine (h.setOwner fun he _ => ?_).put fun k' hk' => by cases hk'
    subst he
    exact H.sleep hop (h.inside hl (HL.condWait hop))
  | @reacquire m' k hl hm =>
    refine (h.setOwner fun _ hn => by cases hn).put fun k' hk' hh => ?_
    cases hk'
    obtain ⟨l, c, hop⟩ := ho.woken hl
    have he : m' = m := H.nested hop ((HL.returns hop m).1 hh)
    subst he
    exact H.wake hop (h.free hm)
  | condSignal ws hl hop hws hne =>
    refine (h.wake _).put fun k' hk' hh => ?_
    cases hk'
    exact hstay hl (by rw [hop]; rfl) (by rw [hop]; exact id) hh
  | condBroadcast ws hl hop hws =>
    refine (h.wake _).put fun k' hk' hh => ?_
    cases hk'
    exact hstay hl (by rw [hop]; rfl) (by rw [hop]; exact id) hh
  | semWait hl hop hx =>
    refine (h.setSem _ _).put fun k' hk' hh => ?_
    cases hk'
    exact hstay hl (by rw [hop]; exact .inl rfl) (by rw [hop]; exact id) hh
  | semIntr hl hop =>
    refine h.put fun k' hk' hh => ?_
    cases hk'
    exact hstay hl (by rw [hop]; exact .inr rfl) (by rw [hop]; exact id) hh
  | semPost hl hop =>
    refine (h.setSem _ _).put fun k' hk' hh => ?_
    cases hk'
    exact hstay hl (by rw [hop]; rfl) (by rw [hop]; exact id) hh
  | create hl hop hu =>
    refine (h.put fun k' hk' hh => ?_).put fun k' hk' hh => ?_
    · cases hk'
      exact absurd hh (HL.create hop m)
    · cases hk'
      exact hstay hl (by rw [hop]; rfl) (by rw [hop]; exact id) hh
  | join hl hop hu he =>
    refine h.put fun k' hk' hh => ?_
    cases hk'
    exact hstay hl (by rw [hop]; rfl) (by rw [hop]; exact id) hh
  | @act l f i d k e hl hop hf =>
    have hkl : holds k m ↔ holds l m := by
      rw [HL.leads (l := l) (by rw [hop]; exact ⟨i, _, _, _, hf⟩), hop]
      rfl
    by_cases hlm : holds l m
    · -- the owner of `m` accesses the data: nobody else is inside and `m` is not free
      have hown : s.owner m = some t := (ho.owner m t).2 (by rw [hl]; exact hlm)
      refine ⟨fun hm => ?_, fun {u l'} hu hl' => ?_⟩
      · rw [St.put_owner, St.record_owner, hown] at hm
        cases hm
      · by_cases hut : u = t
        · subst hut
          obtain rfl : k = l' := by simpa using hu
          simpa using H.act hop hlm hf (h.inside hl hlm)
        · have hu' : s.th u = .run l' := by simpa [hut] using hu
          exact absurd (ho.exclusive (m := m) (by rw [hu']; exact hl') (by rw [hl]; exact hlm)) hut
    · refine ⟨fun hm => ?_, fun {u l'} hu hl' => ?_⟩
      · simpa using H.others_free hop hlm hf (h.free hm)
      · by_cases hut : u = t
        · subst hut
          obtain rfl : k = l' := by simpa using hu
          exact absurd (hkl.1 hl') hlm
        · have hu' : s.th u = .run l' := by simpa [hut] using hu
          simpa using H.others_inside hop hlm hf hl' (h.inside hu' hl')

/-- **The invariant of a monitor holds in every reachable state:** at the
places inside what is said of them, and `free` whenever nobody owns the
mutex. -/
theorem Monitor.inv (H : Monitor P holds m free inside) (HL : Locks P holds)
    {init : St T M S C D L E → Prop} (hown : ∀ s, init s → Owned P holds s)
    (hinit : ∀ s, init s → Guarded holds m free inside s) (hs : (system P init).Reachable s) :
    Guarded holds m free inside s := by
  refine hs.invariant hinit ?_
  rintro s s' hr h ⟨t, hst | hw⟩
  · exact H.step HL (HL.owned hown hr) h hst
  · obtain ⟨hl⟩ := hw
    exact h.put fun k hk => by cases hk

end rules

end Pthread
end OSNetWorkCode
