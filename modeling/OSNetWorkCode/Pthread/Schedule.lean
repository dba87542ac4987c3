/-
# Replaying a schedule

A step of a thread is determined by the thread and a choice: which sleepers a
signal wakes, what the environment answers, which thread is created, whether a
permit arrives or an interrupt, whether a sleeper wakes up by itself.  `exec`
makes the step if it can be made, `replay` makes a list of them.  What a replay
reaches is reachable (`replay_reachable`), so a run is exhibited by writing its
schedule down.
-/

import OSNetWorkCode.Pthread.Quiescence

namespace OSNetWorkCode
namespace Pthread

variable {T M S C D L I E : Type*}

/-- What a step leaves open. -/
inductive Choice (T I : Type*)
  | go
  | input (i : I)
  | wake (ws : Finset T)
  | start (u : T)
  | interrupted
  | spurious

variable [Fintype T] [DecidableEq T] [DecidableEq M] [DecidableEq S] [DecidableEq C]

/-- The step of `t` from `l` along a choice. -/
def execOp (P : L → Op T M S C D L I E) (s : St T M S C D L E) (t : T) (l : L) :
    Choice T I → Option (St T M S C D L E)
  | .go =>
    match P l with
    | .lock m k =>
      if s.owner m = none then some ((s.setOwner m (some t)).put t (.run k)) else none
    | .unlock m k =>
      if s.owner m = some t then some ((s.setOwner m none).put t (.run k)) else none
    | .condWait c m k =>
      if s.owner m = some t then some ((s.setOwner m none).put t (.waiting c m k)) else none
    | .condBroadcast c k => some ((s.wake (s.sleepers c)).put t (.run k))
    | .semWait x k _ =>
      match s.sem x with
      | v + 1 => some ((s.setSem x v).put t (.run k))
      | 0 => none
    | .semPost x k => some ((s.setSem x (s.sem x + 1)).put t (.run k))
    | .join u k =>
      match s.th u with
      | .run l' =>
        match P l' with
        | .exit => some (s.put t (.run k))
        | _ => none
      | _ => none
    | _ => none
  | .input i =>
    match P l with
    | .act f =>
      match f i s.data with
      | some (.next d k ev) => some ((s.record t d ev).put t (.run k))
      | _ => none
    | _ => none
  | .wake ws =>
    match P l with
    | .condSignal c k =>
      if (∀ w ∈ ws, (s.th w).WaitsOn c) ∧ ((∃ w, (s.th w).WaitsOn c) → ws.Nonempty) then
        some ((s.wake ws).put t (.run k))
      else none
    | _ => none
  | .start u =>
    match P l with
    | .create start k =>
      match s.th u with
      | .unborn => some ((s.put u (.run start)).put t (.run k))
      | _ => none
    | _ => none
  | .interrupted =>
    match P l with
    | .semWait _ _ (some k') => some (s.put t (.run k'))
    | _ => none
  | .spurious => none

/-- The step of `t` along a choice. -/
def exec (P : L → Op T M S C D L I E) (s : St T M S C D L E) (t : T) (c : Choice T I) :
    Option (St T M S C D L E) :=
  match s.th t, c with
  | .run l, c => execOp P s t l c
  | .woken m k, .go =>
    if s.owner m = none then some ((s.setOwner m (some t)).put t (.run k)) else none
  | .waiting _ m k, .spurious => some (s.put t (.woken m k))
  | _, _ => none

/-- The steps of a schedule, in order. -/
def replay (P : L → Op T M S C D L I E) : St T M S C D L E → List (T × Choice T I) →
    Option (St T M S C D L E)
  | s, [] => some s
  | s, (t, c) :: rest => (exec P s t c).bind fun s' => replay P s' rest

/-- **What `execOp` makes is a step.**  Each branch of it checks what the rule
of `Step` for that call asks, a free mutex or a permit or an answer that the
access accepts. -/
theorem execOp_sound {P : L → Op T M S C D L I E} {s s' : St T M S C D L E} {t : T} {l : L}
    {c : Choice T I} (hl : s.th t = .run l) (h : execOp P s t l c = some s') : Step P s t s' := by
  cases c with
  | go =>
    cases hop : P l with
    | lock m k =>
      simp only [execOp, hop, Option.ite_none_right_eq_some, Option.some.injEq] at h
      obtain ⟨hm, rfl⟩ := h
      exact .lock hl hop hm
    | unlock m k =>
      simp only [execOp, hop, Option.ite_none_right_eq_some, Option.some.injEq] at h
      obtain ⟨hm, rfl⟩ := h
      exact .unlock hl hop hm
    | condWait cv m k =>
      simp only [execOp, hop, Option.ite_none_right_eq_some, Option.some.injEq] at h
      obtain ⟨hm, rfl⟩ := h
      exact .condWait hl hop hm
    | condBroadcast cv k =>
      simp only [execOp, hop, Option.some.injEq] at h
      subst h
      exact .condBroadcast _ hl hop fun w => by simp
    | semWait x k intr =>
      simp only [execOp, hop] at h
      split at h
      · rename_i v hv
        obtain rfl := Option.some.inj h
        exact .semWait hl hop hv
      · cases h
    | semPost x k =>
      simp only [execOp, hop, Option.some.injEq] at h
      subst h
      exact .semPost hl hop
    | join u k =>
      simp only [execOp, hop] at h
      split at h
      · rename_i l' hu
        split at h
        · rename_i he
          obtain rfl := Option.some.inj h
          exact .join hl hop hu he
        · cases h
      · cases h
    | _ => simp [execOp, hop] at h
  | input i =>
    cases hop : P l with
    | act f =>
      simp only [execOp, hop] at h
      split at h
      · rename_i d k ev hf
        obtain rfl := Option.some.inj h
        exact .act hl hop hf
      · cases h
    | _ => simp [execOp, hop] at h
  | wake ws =>
    cases hop : P l with
    | condSignal cv k =>
      simp only [execOp, hop, Option.ite_none_right_eq_some, Option.some.injEq] at h
      obtain ⟨⟨hws, hne⟩, rfl⟩ := h
      exact .condSignal ws hl hop hws hne
    | _ => simp [execOp, hop] at h
  | start u =>
    cases hop : P l with
    | create start k =>
      simp only [execOp, hop] at h
      split at h
      · rename_i hu
        obtain rfl := Option.some.inj h
        exact .create hl hop hu
      · cases h
    | _ => simp [execOp, hop] at h
  | interrupted =>
    cases hop : P l with
    | semWait x k intr =>
      cases intr with
      | some k' =>
        simp only [execOp, hop, Option.some.injEq] at h
        subst h
        exact .semIntr hl hop
      | none => simp [execOp, hop] at h
    | _ => simp [execOp, hop] at h
  | spurious => cases h

/-- **What `exec` makes is a step or a spurious wake-up.**  It is a spurious
wake-up where the choice says so, of a thread that sleeps. -/
theorem exec_sound {P : L → Op T M S C D L I E} {s s' : St T M S C D L E} {t : T}
    {c : Choice T I} (h : exec P s t c = some s') : Step P s t s' ∨ Wake s t s' := by
  unfold exec at h
  split at h
  · rename_i l hl
    exact .inl (execOp_sound hl h)
  · rename_i m k hl
    simp only [Option.ite_none_right_eq_some, Option.some.injEq] at h
    obtain ⟨hm, rfl⟩ := h
    exact .inl (.reacquire hl hm)
  · rename_i cv m k hl
    obtain rfl := Option.some.inj h
    exact .inr (.spurious hl)
  · cases h

/-- **What a replay reaches is reachable.**  So a run is exhibited by its
schedule, and that it exists is checked by evaluating it. -/
theorem replay_reachable {P : L → Op T M S C D L I E} {init : St T M S C D L E → Prop} :
    ∀ (schedule : List (T × Choice T I)) {s s' : St T M S C D L E},
      (system P init).Reachable s → replay P s schedule = some s' → (system P init).Reachable s'
  | [], s, s', hs, h => by
    obtain rfl := Option.some.inj h
    exact hs
  | (t, c) :: rest, s, s', hs, h => by
    rw [replay, Option.bind_eq_some_iff] at h
    obtain ⟨s₁, h₁, h₂⟩ := h
    exact replay_reachable rest (.step hs ⟨t, exec_sound h₁⟩) h₂

/-- A restricted run goes on with a step that is admitted: what is chosen has
to be possible, and the thread has to be one that may move in that state. -/
theorem restricted_next {P : L → Op T M S C D L I E} {init : St T M S C D L E → Prop}
    {ok : St T M S C D L E → T → Prop} {s s' : St T M S C D L E} {t : T} {c : Choice T I}
    (hs : (restricted P init ok).Reachable s) (hok : ok s t) (h : exec P s t c = some s') :
    (restricted P init ok).Reachable s' := by
  rcases exec_sound h with hst | hw
  · exact .step hs ⟨t, .inl ⟨hok, hst⟩⟩
  · exact .step hs ⟨t, .inr hw⟩

/-- The first of two threads. -/
def caller : Fin 2 := 0

/-- The other one. -/
def worker : Fin 2 := 1

end Pthread
end OSNetWorkCode
