/-
# What a thread has recorded so far depends on where it stands

`Traced P J` says, call by call, that a thread standing at `l` has recorded
events satisfying `J l`: a thread begins with none, an access adds its own, and
every other call leaves them.  No other thread can disturb this, so
`Traced.obeys` needs neither mutexes nor an invariant of the data.
-/

import OSNetWorkCode.Pthread.Locks

namespace OSNetWorkCode
namespace Pthread

variable {T M S C D L I E : Type*}

/-- The events of a thread not yet born are none; those of any other thread
satisfy `J` of the place it is at or returns to. -/
def Status.Obeys (J : L → List E → Prop) : Status M C L → List E → Prop
  | .unborn, ev => ev = []
  | .run l, ev | .waiting _ _ l, ev | .woken _ l, ev => J l ev

/-- A delivered wake-up leaves the place the thread returns to, and so what is
said of its events. -/
theorem Status.Obeys.wakeUp {J : L → List E → Prop} {st : Status M C L} {ev : List E}
    (h : st.Obeys J ev) : st.wakeUp.Obeys J ev := by
  cases st <;> exact h

/-- Each call of `P` keeps `J`, which relates the place of a thread to the
events it recorded. -/
structure Traced (P : L → Op T M S C D L I E) (J : L → List E → Prop) : Prop where
  create : ∀ {l start k}, P l = .create start k → J start []
  stay : ∀ {l k ev}, (∀ f, P l ≠ .act f) → (P l).Leads k → J l ev → J k ev
  act : ∀ {l f i d d' k ev e}, P l = .act f → f i d = some (.next d' k e) → J l ev → J k (ev ++ e)

/-- Every thread obeys `J`. -/
def Obeying [DecidableEq T] (J : L → List E → Prop) (s : St T M S C D L E) : Prop :=
  ∀ t, (s.th t).Obeys J (s.eventsOf t)

section rule

variable [DecidableEq T] [DecidableEq M] [DecidableEq S]
variable {P : L → Op T M S C D L I E} {J : L → List E → Prop} {s s' : St T M S C D L E} {t : T}

omit [DecidableEq M] [DecidableEq S] in
/-- A thread moves without recording anything.  The others stay where they are,
with the events they have. -/
theorem Obeying.put (h : Obeying J s) {st : Status M C L} (hst : st.Obeys J (s.eventsOf t)) :
    Obeying J (s.put t st) := by
  intro u
  by_cases hu : u = t
  · subst hu
    simpa using hst
  · simpa [hu] using h u

omit [DecidableEq M] [DecidableEq S] in
/-- A signal records nothing, and the sleepers it wakes return to the places
they had. -/
theorem Obeying.wake (h : Obeying J s) (ws : Finset T) : Obeying J (s.wake ws) := by
  intro u
  rw [St.wake_th]
  split_ifs
  · exact (h u).wakeUp
  · exact h u

/-- **A step keeps what is said of each thread's events.**  Only the thread
that takes the step records anything, and only by an access, which `Traced.act`
speaks of. -/
theorem Traced.step (H : Traced P J) (h : Obeying J s) (hs : Step P s t s') : Obeying J s' := by
  have hrun : ∀ {l k}, s.th t = .run l → (∀ f, P l ≠ .act f) → (P l).Leads k →
      J k (s.eventsOf t) := fun {l k} hl hf hk => by
    have hJ := h t
    rw [hl] at hJ
    exact H.stay hf hk hJ
  cases hs with
  | lock hl ho hm =>
    exact Obeying.put h (hrun hl (by simp [ho]) (by rw [ho]; rfl))
  | unlock hl ho hm =>
    exact Obeying.put h (hrun hl (by simp [ho]) (by rw [ho]; rfl))
  | condWait hl ho hm =>
    exact Obeying.put h (hrun hl (by simp [ho]) (by rw [ho]; rfl))
  | @reacquire m k hl hm =>
    have hJ := h t
    rw [hl] at hJ
    exact Obeying.put h hJ
  | condSignal ws hl ho hws hne =>
    exact (h.wake ws).put (hrun hl (by simp [ho]) (by rw [ho]; rfl))
  | condBroadcast ws hl ho hws =>
    exact (h.wake ws).put (hrun hl (by simp [ho]) (by rw [ho]; rfl))
  | semWait hl ho hx =>
    exact Obeying.put h (hrun hl (by simp [ho]) (by rw [ho]; exact .inl rfl))
  | semIntr hl ho =>
    exact Obeying.put h (hrun hl (by simp [ho]) (by rw [ho]; exact .inr rfl))
  | semPost hl ho =>
    exact Obeying.put h (hrun hl (by simp [ho]) (by rw [ho]; rfl))
  | @create l start k u hl ho hu =>
    have hnone : s.eventsOf u = [] := by
      have hJ := h u
      rwa [hu] at hJ
    have hborn : Obeying J (s.put u (.run start)) := h.put (by
      rw [hnone]
      exact H.create ho)
    exact hborn.put (hrun hl (by simp [ho]) (by rw [ho]; rfl))
  | join hl ho hu he =>
    exact Obeying.put h (hrun hl (by simp [ho]) (by rw [ho]; rfl))
  | @act l f i d k e hl ho hf =>
    have hJ := h t
    rw [hl] at hJ
    intro u
    by_cases hu : u = t
    · subst hu
      simpa [Status.Obeys] using H.act ho hf hJ
    · simpa [hu, Ne.symm hu] using h u

/-- **In every reachable state every thread obeys `J`.**  Neither mutexes nor
the shared data are looked at, so this can be used to establish facts about
them. -/
theorem Traced.obeys (H : Traced P J) {init : St T M S C D L E → Prop}
    (hinit : ∀ s, init s → Obeying J s) (hs : (system P init).Reachable s) : Obeying J s := by
  refine hs.invariant hinit ?_
  rintro s s' - h ⟨t, hst | hw⟩
  · exact H.step h hst
  · obtain ⟨hl⟩ := hw
    have hJ := h t
    rw [hl] at hJ
    exact h.put hJ

end rule

end Pthread
end OSNetWorkCode
