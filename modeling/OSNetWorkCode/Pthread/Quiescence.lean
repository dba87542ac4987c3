/-
# What a state without steps looks like

A program is `Prompt` when nothing can block inside its critical sections: a
thread that owns a mutex neither takes another one nor waits for a permit, a
thread or the environment, it sleeps only where the mutex it gives back is the
one it owns, and it does not end there.

In a reachable state of such a program where no thread has a step, every mutex
is free (`Quiescent.owner_eq_none`): its owner would have one.  So nobody is
blocked on a mutex, and each thread is in one of the ways of standing still
that `Stalled` lists (`Quiescent.stalled`).  Spurious wake-ups are no steps
here: a state is quiescent although a sleeper in it might still wake up by
itself.
-/

import OSNetWorkCode.Pthread.Locks

namespace OSNetWorkCode
namespace Pthread

variable {T M S C D L I E : Type*}

/-- Nothing blocks inside a critical section of `P`. -/
structure Prompt (P : L → Op T M S C D L I E) (holds : L → M → Prop) : Prop where
  lock : ∀ {l m k}, P l = .lock m k → ∀ m', ¬ holds l m'
  condWait : ∀ {l c m k}, P l = .condWait c m k → ∀ m', holds l m' → m' = m
  semWait : ∀ {l x k intr}, P l = .semWait x k intr → ∀ m, ¬ holds l m
  create : ∀ {l start k}, P l = .create start k → ∀ m, ¬ holds l m
  join : ∀ {l u k}, P l = .join u k → ∀ m, ¬ holds l m
  act : ∀ {l f m}, P l = .act f → holds l m → ∀ d, ∃ i o, f i d = some o
  exit : ∀ {l}, P l = .exit → ∀ m, ¬ holds l m

/-- The ways a thread can stand still with every mutex free. -/
inductive Stalled (P : L → Op T M S C D L I E) (s : St T M S C D L E) (t : T) : Prop
  | unborn (h : s.th t = .unborn)
  | asleep (h : (s.th t).Asleep)
  | done {l} (hl : s.th t = .run l) (ho : P l = .exit)
  | permit {l x k} (hl : s.th t = .run l) (ho : P l = .semWait x k none) (hx : s.sem x = 0)
  | create {l start k} (hl : s.th t = .run l) (ho : P l = .create start k)
      (hu : ∀ u, s.th u ≠ .unborn)
  | join {l u k} (hl : s.th t = .run l) (ho : P l = .join u k)
      (hu : ∀ l', s.th u = .run l' → P l' ≠ .exit)
  | input {l f} (hl : s.th t = .run l) (ho : P l = .act f) (hf : ∀ i, f i s.data = none)

/-- Some thread stands inside a critical section before an access whose
behaviour is undefined. -/
def FaultyInside (P : L → Op T M S C D L I E) (holds : L → M → Prop) (s : St T M S C D L E) :
    Prop :=
  ∃ t l m f i, s.th t = .run l ∧ holds l m ∧ P l = .act f ∧ f i s.data = some .undefined

/-- A thread that stands inside a critical section before an undefined access
is, first of all, one that stands before an undefined access. -/
theorem FaultyInside.faulty {P : L → Op T M S C D L I E} {holds : L → M → Prop}
    {s : St T M S C D L E} (h : FaultyInside P holds s) : Faulty P s := by
  obtain ⟨t, l, m, f, i, ht, -, hop, hf⟩ := h
  exact ⟨t, l, f, i, ht, hop, hf⟩

/-- Every access of `P` can be made, and none is undefined. -/
def Total (P : L → Op T M S C D L I E) : Prop :=
  ∀ {l f}, P l = .act f → ∀ i d, ∃ d' k ev, f i d = some (.next d' k ev)

/-- Where every access can be made no thread stands before an undefined one.  A
run of such a program is defined to its end. -/
theorem Total.not_faulty {P : L → Op T M S C D L I E} (H : Total P) (s : St T M S C D L E) :
    ¬ Faulty P s := by
  rintro ⟨t, l, f, i, -, hop, hf⟩
  obtain ⟨d, k, ev, hnext⟩ := H hop i s.data
  rw [hf] at hnext
  cases hnext

/-- The environment always has an answer, so that no thread waits for one. -/
theorem Total.answers {P : L → Op T M S C D L I E} (H : Total P) {l : L} {f} {d : D}
    (hop : P l = .act f) (i : I) : f i d ≠ none := by
  obtain ⟨d', k, ev, hnext⟩ := H hop i d
  rw [hnext]
  exact Option.some_ne_none _

section quiescent

variable [Fintype T] [DecidableEq T] [DecidableEq M] [DecidableEq S] [DecidableEq C]
variable {P : L → Op T M S C D L I E} {holds : L → M → Prop} {s : St T M S C D L E}

/-- The sleepers on `c`. -/
def St.sleepers (s : St T M S C D L E) (c : C) : Finset T :=
  Finset.univ.filter fun w => (s.th w).WaitsOn c

omit [DecidableEq T] [DecidableEq M] [DecidableEq S] in
/-- The sleepers on `c` are the threads that `pthread_cond_signal` may wake. -/
@[simp] theorem St.mem_sleepers (c : C) (w : T) : w ∈ s.sleepers c ↔ (s.th w).WaitsOn c := by
  simp [sleepers]

/-- Signalling can always be done: by waking every sleeper.  Where there is
none, the signal is made without anybody to wake. -/
theorem exists_signal {t : T} {l : L} {c : C} {k : L} (hl : s.th t = .run l)
    (ho : P l = .condSignal c k) : ∃ s', Step P s t s' :=
  ⟨_, .condSignal (s.sleepers c) hl ho (fun w hw => by simpa using hw)
    fun ⟨w, hw⟩ => ⟨w, by simpa using hw⟩⟩

/-- A thread inside a critical section has a step.  A prompt program waits
there for nothing but a condition variable, and falling asleep is a step. -/
theorem exists_step_of_holds (H : Locks P holds) (HP : Prompt P holds) (ho : Owned P holds s)
    (hf : ¬ FaultyInside P holds s) {t : T} {l : L} {m : M} (hl : s.th t = .run l)
    (hm : holds l m) : ∃ s', Step P s t s' := by
  have hown : ∀ {m'}, holds l m' → s.owner m' = some t := fun h' =>
    (ho.owner _ t).2 (by rw [hl]; exact h')
  cases hop : P l with
  | lock m' k => exact absurd hm (HP.lock hop m)
  | unlock m' k => exact ⟨_, .unlock hl hop (hown (H.unlock hop))⟩
  | condWait c m' k => exact ⟨_, .condWait hl hop (hown (H.condWait hop))⟩
  | condSignal c k => exact exists_signal hl hop
  | condBroadcast c k =>
    exact ⟨_, .condBroadcast (s.sleepers c) hl hop fun w => by simp⟩
  | semWait x k intr => exact absurd hm (HP.semWait hop m)
  | semPost x k => exact ⟨_, .semPost hl hop⟩
  | create start k => exact absurd hm (HP.create hop m)
  | join u k => exact absurd hm (HP.join hop m)
  | act f =>
    obtain ⟨i, o, hio⟩ := HP.act hop hm s.data
    cases o with
    | next d k ev => exact ⟨_, .act hl hop hio⟩
    | undefined => exact absurd ⟨t, l, m, f, i, hl, hm, hop, hio⟩ hf
  | exit => exact absurd hm (HP.exit hop m)

/-- **In a quiescent state every mutex is free.**  An owner that runs inside
its section has a step; one that sleeps has given the mutex back; and a place
outside owns nothing. -/
theorem Quiescent.owner_eq_none (hq : Quiescent P s) (H : Locks P holds) (HP : Prompt P holds)
    (ho : Owned P holds s) (hf : ¬ FaultyInside P holds s) (m : M) : s.owner m = none := by
  cases hm : s.owner m with
  | none => rfl
  | some t =>
    have hh := (ho.owner m t).1 hm
    cases hst : s.th t with
    | unborn =>
      rw [hst] at hh
      exact hh.elim
    | run l =>
      rw [hst] at hh
      obtain ⟨s', hs⟩ := exists_step_of_holds H HP ho hf hst hh
      exact absurd hs (hq t s')
    | waiting c m' k =>
      rw [hst] at hh
      obtain ⟨l, hl⟩ := ho.waiting hst
      exact absurd (HP.condWait hl m ((H.returns hl m).1 hh.2)) hh.1
    | woken m' k =>
      rw [hst] at hh
      obtain ⟨l, c, hl⟩ := ho.woken hst
      exact absurd (HP.condWait hl m ((H.returns hl m).1 hh.2)) hh.1

/-- **In a quiescent state no thread is woken:** it could take its mutex, which
is free. -/
theorem Quiescent.not_woken (hq : Quiescent P s) (H : Locks P holds) (HP : Prompt P holds)
    (ho : Owned P holds s) (hf : ¬ FaultyInside P holds s) (t : T) (m : M) (k : L) :
    s.th t ≠ .woken m k := fun hst =>
  hq t _ (.reacquire hst (hq.owner_eq_none H HP ho hf m))

/-- **In a quiescent state every thread is stalled.**  What is left to a
program is to exclude, by its own invariants, the ways of standing still that
it should not come to. -/
theorem Quiescent.stalled (hq : Quiescent P s) (H : Locks P holds) (HP : Prompt P holds)
    (ho : Owned P holds s) (hf : ¬ Faulty P s) (t : T) : Stalled P s t := by
  have hin : ¬ FaultyInside P holds s := fun h => hf h.faulty
  have hfree := hq.owner_eq_none H HP ho hin
  cases hst : s.th t with
  | unborn => exact .unborn hst
  | waiting c m k => exact .asleep (by rw [hst]; trivial)
  | woken m k => exact absurd hst (hq.not_woken H HP ho hin t m k)
  | run l =>
    cases hop : P l with
    | lock m k => exact absurd (.lock hst hop (hfree m)) (hq t _)
    | unlock m k =>
      have := (ho.owner m t).2 (by rw [hst]; exact H.unlock hop)
      rw [hfree] at this
      cases this
    | condWait c m k =>
      have := (ho.owner m t).2 (by rw [hst]; exact H.condWait hop)
      rw [hfree] at this
      cases this
    | condSignal c k =>
      obtain ⟨s', hs⟩ := exists_signal hst hop
      exact absurd hs (hq t s')
    | condBroadcast c k =>
      exact absurd (.condBroadcast (s.sleepers c) hst hop fun w => by simp) (hq t _)
    | semWait x k intr =>
      cases hx : s.sem x with
      | succ v => exact absurd (.semWait hst hop hx) (hq t _)
      | zero =>
        cases intr with
        | none => exact .permit hst hop hx
        | some k' => exact absurd (.semIntr hst hop) (hq t _)
    | semPost x k => exact absurd (.semPost hst hop) (hq t _)
    | create start k => exact .create hst hop fun u hu => hq t _ (.create hst hop hu)
    | join u k => exact .join hst hop fun l' hu he => hq t _ (.join hst hop hu he)
    | act f =>
      refine .input hst hop fun i => ?_
      cases hio : f i s.data with
      | none => rfl
      | some o =>
        cases o with
        | next d k ev => exact absurd (.act hst hop hio) (hq t _)
        | undefined => exact absurd ⟨t, l, f, i, hst, hop, hio⟩ hf
    | exit => exact .done hst hop

/-- What a call needs to be made by `t`. -/
def Op.Enabled (P : L → Op T M S C D L I E) (s : St T M S C D L E) (t : T) :
    Op T M S C D L I E → Prop
  | .lock m _ => s.owner m = none
  | .unlock m _ | .condWait _ m _ => s.owner m = some t
  | .condSignal .. | .condBroadcast .. | .semPost .. => True
  | .semWait x _ intr => s.sem x ≠ 0 ∨ intr ≠ none
  | .create .. => ∃ u, s.th u = .unborn
  | .join u _ => ∃ l, s.th u = .run l ∧ P l = .exit
  | .act f => ∃ i o, f i s.data = some o
  | .exit => False

omit [Fintype T] [DecidableEq C] in
/-- A thread that runs and has a step could make its call.  This is what a
witness refutes, thread by thread, to show that a state is quiescent. -/
theorem Step.enabled {s' : St T M S C D L E} {t : T} {l : L} (hs : Step P s t s')
    (hl : s.th t = .run l) : (P l).Enabled P s t := by
  have hsame : ∀ {l'}, s.th t = .run l' → l' = l := fun hl' =>
    (Status.run.inj (hl.symm.trans hl')).symm
  cases hs with
  | lock hl' ho hm | unlock hl' ho hm | condWait hl' ho hm =>
    obtain rfl := hsame hl'
    rw [ho]
    exact hm
  | reacquire hl' hm =>
    rw [hl] at hl'
    cases hl'
  | condSignal ws hl' ho | condBroadcast ws hl' ho | semPost hl' ho =>
    obtain rfl := hsame hl'
    rw [ho]
    trivial
  | semWait hl' ho hx =>
    obtain rfl := hsame hl'
    rw [ho]
    exact .inl (by rw [hx]; exact Nat.succ_ne_zero _)
  | semIntr hl' ho =>
    obtain rfl := hsame hl'
    rw [ho]
    exact .inr (Option.some_ne_none _)
  | create hl' ho hu =>
    obtain rfl := hsame hl'
    rw [ho]
    exact ⟨_, hu⟩
  | join hl' ho hu he =>
    obtain rfl := hsame hl'
    rw [ho]
    exact ⟨_, hu, he⟩
  | act hl' ho hf =>
    obtain rfl := hsame hl'
    rw [ho]
    exact ⟨_, _, hf⟩

omit [Fintype T] [DecidableEq C] in
/-- Who has a step runs or is woken.  A sleeper has none: that it wakes up is
no step of its own. -/
theorem Step.status {s' : St T M S C D L E} {t : T} (hs : Step P s t s') :
    (∃ l, s.th t = .run l) ∨ ∃ m k, s.th t = .woken m k := by
  cases hs with
  | reacquire hl hm => exact .inr ⟨_, _, hl⟩
  | lock hl | unlock hl | condWait hl | semWait hl | semIntr hl | semPost hl | create hl | join hl
  | act hl => exact .inl ⟨_, hl⟩
  | condSignal _ hl | condBroadcast _ hl => exact .inl ⟨_, hl⟩

omit [Fintype T] [DecidableEq C] in
/-- **A stalled thread has no step.**  With `Quiescent.stalled` the stalled
states are just the quiescent ones. -/
theorem Stalled.not_step {t : T} (h : Stalled P s t) (s' : St T M S C D L E) : ¬ Step P s t s' := by
  intro hs
  cases h with
  | unborn h =>
    rcases hs.status with ⟨l, hl⟩ | ⟨m, k, hl⟩ <;>
      · rw [h] at hl
        cases hl
  | asleep h =>
    rcases hs.status with ⟨l, hl⟩ | ⟨m, k, hl⟩ <;>
      · rw [hl] at h
        exact h
  | done hl ho =>
    have he := hs.enabled hl
    rw [ho] at he
    exact he
  | permit hl ho hx =>
    have he := hs.enabled hl
    rw [ho] at he
    rcases he with he | he
    · exact he hx
    · exact he rfl
  | create hl ho hu =>
    have he := hs.enabled hl
    rw [ho] at he
    obtain ⟨u, he⟩ := he
    exact hu u he
  | join hl ho hu =>
    have he := hs.enabled hl
    rw [ho] at he
    obtain ⟨l, hl', he⟩ := he
    exact hu l hl' he
  | input hl ho hf =>
    have he := hs.enabled hl
    rw [ho] at he
    obtain ⟨i, o, he⟩ := he
    rw [hf i] at he
    cases he

end quiescent

end Pthread
end OSNetWorkCode
