/-
# A mutex that was left behind

Where a thread can leave a critical section without giving its mutex back, what
a place says is held is only a bound: who stands where `m` is held owns it
(`Keyed`), but an owner may stand elsewhere.  `Bounds P holds` is what is left
of `Locks` then.

An owner that has left its section cannot come back into it, nor can anybody
else, for the mutex is not free; and outside nobody unlocks it.  So it is
locked for ever (`Abandoned.step`), and who comes to it waits
(`Abandoned.blocks`).
-/

import OSNetWorkCode.Pthread.Places

namespace OSNetWorkCode
namespace Pthread

open Function

variable {T M S C D L I E : Type*}

/-- The calls of `P` own what `holds` says or more; a mutex is given back where
it is held. -/
structure Bounds (P : L → Op T M S C D L I E) (holds : L → M → Prop) : Prop where
  unlock : ∀ {l m k}, P l = .unlock m k → holds l m
  condWait : ∀ {l c m k}, P l = .condWait c m k → holds l m
  create : ∀ {l start k}, P l = .create start k → ∀ m, ¬ holds start m
  leads : ∀ {l k}, (P l).Leads k → ∀ m, holds k m → (P l).held (holds l) m

/-- Who stands where a mutex is held owns it. -/
def Keyed (holds : L → M → Prop) (s : St T M S C D L E) : Prop :=
  ∀ t m, (s.th t).Holds holds m → s.owner m = some t

/-- `t` owns `m`, and nobody stands where `m` is held. -/
structure Abandoned (holds : L → M → Prop) (m : M) (t : T) (s : St T M S C D L E) : Prop where
  owner : s.owner m = some t
  outside : ∀ u, ¬ (s.th u).Holds holds m

/-- What a step of `t` does to one mutex: `t` takes it, `t` gives it back, or
its owner stays and `t` holds no more than before. -/
inductive Turn (holds : L → M → Prop) (s : St T M S C D L E) (t : T) (s' : St T M S C D L E)
    (m : M) : Prop
  | takes (hfree : s.owner m = none) (howner : s'.owner m = some t)
  | gives (hm : s.owner m = some t) (hheld : (s.th t).Holds holds m) (howner : s'.owner m = none)
      (hout : ¬ (s'.th t).Holds holds m)
  | keeps (howner : s'.owner m = s.owner m)
      (hout : (s'.th t).Holds holds m → (s.th t).Holds holds m)

section steps

variable [DecidableEq T] [DecidableEq M] [DecidableEq S]
variable {P : L → Op T M S C D L I E} {holds : L → M → Prop} {m : M}
variable {s s' : St T M S C D L E} {t u : T}

/-- The other threads hold no more than before: a step moves one thread, and
wakes or starts others, which gives them no mutex. -/
theorem Bounds.others (H : Bounds P holds) (hs : Step P s t s') (hu : u ≠ t)
    (h : (s'.th u).Holds holds m) : (s.th u).Holds holds m := by
  have hwake : ∀ ws, ((s.wake ws).th u).Holds holds m → (s.th u).Holds holds m := fun ws hw => by
    rw [St.wake_th] at hw
    split_ifs at hw
    · exact (Status.holds_wakeUp holds _ m).1 hw
    · exact hw
  cases hs with
  | condSignal ws hl ho hws hne | condBroadcast ws hl ho hws =>
    rw [St.put_th, update_of_ne hu] at h
    exact hwake ws h
  | @create l start k v hl ho hv =>
    rw [St.put_th, update_of_ne hu, St.put_th] at h
    by_cases huv : u = v
    · rw [huv, update_self] at h
      exact absurd h (H.create ho m)
    · rwa [update_of_ne huv] at h
  | _ =>
    rw [St.put_th, update_of_ne hu] at h
    exact h

omit [DecidableEq M] [DecidableEq S] in
/-- A call that changes no owner keeps the owners, and the thread comes to a
place where no more is held. -/
theorem Bounds.run (H : Bounds P holds) {l k : L} (hl : s.th t = .run l) (hk : (P l).Leads k)
    (hh : (P l).held (holds l) = holds l) {r : St T M S C D L E} (hr : r.owner = s.owner) :
    Turn holds s t (r.put t (.run k)) m := by
  refine .keeps (by rw [St.put_owner, hr]) fun h => ?_
  rw [St.put_th, update_self] at h
  have hheld := H.leads hk m h
  rw [hh] at hheld
  rw [hl]
  exact hheld

omit [DecidableEq T] [DecidableEq S] in
/-- A step that takes the mutex `m₀` is a turn with it, and keeps the owner of
every other one. -/
theorem Turn.take {m₀ : M} (hfree : s.owner m₀ = none) (howner : s'.owner = update s.owner m₀ (some t))
    (h : (s'.th t).Holds holds m → m = m₀ ∨ (s.th t).Holds holds m) : Turn holds s t s' m := by
  by_cases hm : m = m₀
  · subst hm
    exact .takes hfree (by rw [howner, update_self])
  · exact .keeps (by rw [howner, update_of_ne hm]) fun hin => (h hin).resolve_left hm

omit [DecidableEq T] [DecidableEq S] in
/-- A step that gives the mutex `m₀` back is a turn with it.  The thread stood
where `m₀` is held, which an owner that has left its section does not. -/
theorem Turn.give {m₀ : M} (hm₀ : s.owner m₀ = some t) (hheld : (s.th t).Holds holds m₀)
    (howner : s'.owner = update s.owner m₀ none)
    (h : (s'.th t).Holds holds m → m ≠ m₀ ∧ (s.th t).Holds holds m) : Turn holds s t s' m := by
  by_cases hm : m = m₀
  · subst hm
    exact .gives hm₀ hheld (by rw [howner, update_self]) fun hin => (h hin).1 rfl
  · exact .keeps (by rw [howner, update_of_ne hm]) fun hin => (h hin).2

/-- **Every step is a turn** with every mutex: its thread takes it or gives it
back, or the owner stays the same. -/
theorem Bounds.turn (H : Bounds P holds) (hs : Step P s t s') (m : M) : Turn holds s t s' m := by
  cases hs with
  | @lock l m₀ k hl ho hm =>
    refine .take hm rfl fun h => ?_
    rw [St.put_th, update_self] at h
    have hheld := H.leads (l := l) (by rw [ho]; rfl) m h
    rw [ho] at hheld
    rw [hl]
    exact hheld
  | @unlock l m₀ k hl ho hm =>
    refine .give hm (by rw [hl]; exact H.unlock ho) rfl fun h => ?_
    rw [St.put_th, update_self] at h
    have hheld := H.leads (l := l) (by rw [ho]; rfl) m h
    rw [ho] at hheld
    rw [hl]
    exact hheld
  | @condWait l c m₀ k hl ho hm =>
    refine .give hm (by rw [hl]; exact H.condWait ho) rfl fun h => ?_
    rw [St.put_th, update_self] at h
    have hheld := H.leads (l := l) (by rw [ho]; rfl) m h.2
    rw [ho] at hheld
    rw [hl]
    exact ⟨h.1, hheld⟩
  | @reacquire m₀ k hl hm =>
    -- what it will hold was given up for the wait, but for `m₀`
    refine .take hm rfl fun h => ?_
    rw [St.put_th, update_self] at h
    rw [hl]
    by_cases hmm : m = m₀
    · exact .inl hmm
    · exact .inr ⟨hmm, h⟩
  | condSignal ws hl ho hws hne | condBroadcast ws hl ho hws =>
    exact H.run hl (by rw [ho]; rfl) (by rw [ho]; rfl) rfl
  | semWait hl ho hx => exact H.run hl (by rw [ho]; exact .inl rfl) (by rw [ho]; rfl) rfl
  | semIntr hl ho => exact H.run hl (by rw [ho]; exact .inr rfl) (by rw [ho]; rfl) rfl
  | semPost hl ho | create hl ho hu | join hl ho hu he =>
    exact H.run hl (by rw [ho]; rfl) (by rw [ho]; rfl) rfl
  | act hl ho hf => exact H.run hl (by rw [ho]; exact ⟨_, _, _, _, hf⟩) (by rw [ho]; rfl) rfl

omit [DecidableEq M] [DecidableEq S] in
/-- A spurious wake-up leaves what is held. -/
theorem Wake.holds_iff (hw : Wake s t s') (u : T) :
    (s'.th u).Holds holds m ↔ (s.th u).Holds holds m := by
  obtain ⟨hl⟩ := hw
  by_cases hu : u = t
  · subst hu
    rw [St.put_th, update_self, hl]
    rfl
  · rw [St.put_th, update_of_ne hu]

omit [DecidableEq M] [DecidableEq S] in
/-- A spurious wake-up leaves who owns what. -/
theorem Wake.owner (hw : Wake s t s') : s'.owner = s.owner := by
  obtain ⟨-⟩ := hw
  rfl

/-- **A step keeps the keys with those who stand inside.**  Nobody else can be
given the mutex meanwhile, for it is not free. -/
theorem Keyed.step (H : Bounds P holds) (h : Keyed holds s) (hs : Step P s t s') :
    Keyed holds s' := by
  intro u m hu
  by_cases hut : u = t
  · subst hut
    cases H.turn hs m with
    | takes hfree howner => exact howner
    | gives hm hheld howner hout => exact absurd hu hout
    | keeps howner hout =>
      rw [howner]
      exact h u m (hout hu)
  · have howns := h u m (H.others hs hut hu)
    cases H.turn hs m with
    | takes hfree howner =>
      rw [howns] at hfree
      cases hfree
    | gives hm hheld howner hout =>
      rw [howns] at hm
      exact absurd (Option.some.inj hm) hut
    | keeps howner hout => rw [howner, howns]

/-- Who stands inside owns the mutex, in every reachable state.  The converse,
which `Locks.owned` has, is what may fail here. -/
theorem Bounds.keyed (H : Bounds P holds) {init : St T M S C D L E → Prop}
    (hinit : ∀ s, init s → Keyed holds s) (hs : (system P init).Reachable s) : Keyed holds s := by
  refine hs.invariant hinit ?_
  rintro s s' - h ⟨t, hst | hw⟩
  · exact h.step H hst
  · intro u m hu
    rw [hw.owner]
    exact h u m ((hw.holds_iff u).1 hu)

/-- **A step of anybody leaves an abandoned mutex abandoned.**  It cannot be
taken, as it is not free, and it is given back inside only, where nobody
stands. -/
theorem Abandoned.step (H : Bounds P holds) (h : Abandoned holds m t s) (hs : Step P s u s') :
    Abandoned holds m t s' := by
  have hout : ∀ v, v ≠ u → ¬ (s'.th v).Holds holds m := fun v hv hm =>
    h.outside v (H.others hs hv hm)
  cases H.turn hs m with
  | takes hfree howner =>
    rw [h.owner] at hfree
    cases hfree
  | gives hm hheld howner hout => exact absurd hheld (h.outside u)
  | keeps howner hown =>
    refine ⟨howner.trans h.owner, fun v => ?_⟩
    by_cases hv : v = u
    · subst hv
      exact fun hm => h.outside v (hown hm)
    · exact hout v hv

/-- **It is locked for ever,** in every run that goes on from there, and with
the same owner. -/
theorem Abandoned.ever (H : Bounds P holds) (h : Abandoned holds m t s)
    (hs : (system P fun r => r = s).Reachable s') : Abandoned holds m t s' := by
  refine hs.invariant (fun r hr => by rw [hr]; exact h) ?_
  rintro s₁ s₂ - h₁ ⟨u, hst | hw⟩
  · exact h₁.step H hst
  · refine ⟨by rw [hw.owner]; exact h₁.owner, fun v hm => ?_⟩
    exact h₁.outside v ((hw.holds_iff v).1 hm)

/-- **Who comes to it has no step.**  That holds for its owner too, whose mutex
is not recursive. -/
theorem Abandoned.blocks (h : Abandoned holds m t s) {l k : L} (hu : s.th u = .run l)
    (hop : P l = .lock m k) : ¬ Step P s u s' := by
  intro hst
  have hmakes := hst.makes hu
  rw [hop] at hmakes
  have hfree := hmakes.1
  rw [h.owner] at hfree
  cases hfree

/-- **How it comes to that:** the thread inside takes a step out of the section
and keeps the mutex. -/
theorem Keyed.abandoned (H : Bounds P holds) (h : Keyed holds s) (hs : Step P s t s')
    (hin : (s.th t).Holds holds m) (hout : ¬ (s'.th t).Holds holds m)
    (howner : s'.owner m = s.owner m) : Abandoned holds m t s' := by
  have howns := h t m hin
  refine ⟨howner.trans howns, fun u hu => ?_⟩
  by_cases hut : u = t
  · subst hut
    exact hout hu
  · have hother := h u m (H.others hs hut hu)
    rw [howns] at hother
    exact hut (Option.some.inj hother).symm

end steps

end Pthread
end OSNetWorkCode
