/-
# `RingQueue` does not deadlock

A thread takes its permit before the mutex and posts the opposite one after it,
so permits may be parked with threads on their way to a mutex.  A state without
steps has none of these: every mutex is free there, and whoever is on the way
to one could take it (`Pthread.Quiescent.stalled`).  All `n` permits are in the
semaphores then (`permits_sum`), so the two are not both empty, and calls can
be blocked on one of them only (`blocked`).

Each step brings its thread one step closer to the end of its calls
(`countdown`), so a run of threads with finitely many calls ends, and it ends
in such a state.
-/

import Mathlib.Tactic.FinCases
import OSNetWorkCode.Pthread.Places
import OSNetWorkCode.RingQueue.Slots

namespace OSNetWorkCode
namespace RingQueue

open Pthread

variable {T α : Type*}

/-- **Nothing blocks inside a critical section:** the permit was taken before,
and the post does not wait. -/
theorem prompt : Prompt (prog (T := T) (α := α) Env.calm) holds where
  lock {l m k} h := by
    cases l <;> cases h <;> intro m' <;> exact id
  condWait {l c} h := c.elim
  semWait {l x k intr} h := by
    cases l <;> cases h <;> intro m <;> exact id
  create {l start k} h := by
    cases l <;> cases h
  join {l u k} h := by
    cases l <;> cases h
  act {l f m} h hm d := by
    cases l with
    | pushStore v todo =>
      cases h
      refine ⟨false, ?_⟩
      simp only [store, Bool.false_eq_true, if_false]
      split_ifs <;> exact ⟨_, rfl⟩
    | pushMod todo =>
      cases h
      refine ⟨false, ?_⟩
      unfold modP
      split_ifs <;> exact ⟨_, rfl⟩
    | popLoad todo =>
      cases h
      refine ⟨false, ?_⟩
      simp only [load, Bool.false_eq_true, if_false]
      split <;> exact ⟨_, rfl⟩
    | popMod todo =>
      cases h
      refine ⟨false, ?_⟩
      unfold modC
      split_ifs <;> exact ⟨_, rfl⟩
    | _ => cases h
  exit {l} h := by
    cases l <;> cases h
    intro m
    exact id

/-! ### Every run ends -/

/-- The steps a thread has still to make: six for each call. -/
def stepsLeft : Pc α → ℕ
  | .ready todo => 6 * todo.length
  | .pushLock _ todo | .popLock todo => 6 * todo.length + 5
  | .pushStore _ todo | .popLoad todo => 6 * todo.length + 4
  | .pushMod todo | .popMod todo => 6 * todo.length + 3
  | .pushUnlock todo | .popUnlock todo => 6 * todo.length + 2
  | .pushPost todo | .popPost todo => 6 * todo.length + 1

/-- Each call of `push` and `pop` is one of the six: it brings its thread one
step closer to the end. -/
theorem stepsLeft_of_leads {l k : Pc α} (hk : (prog (T := T) Env.calm l).Leads k) :
    stepsLeft k + 1 = stepsLeft l := by
  by_cases hact : ∃ f, prog (T := T) Env.calm l = .act f
  · obtain ⟨f, hop⟩ := hact
    rw [hop] at hk
    obtain ⟨i, d, d', ev, hf⟩ := hk
    cases access rfl hop hf <;> rfl
  · cases l with
    | done => exact hk.elim
    | callPush v todo | callPop todo =>
      rw [Sem.p_leads hk]
      simp only [stepsLeft, List.length_cons]
      omega
    | pushStore v todo | pushMod todo | popLoad todo | popMod todo => exact absurd ⟨_, rfl⟩ hact
    | _ =>
      cases hk
      rfl

section reachable

variable [Fintype T] [DecidableEq T] [Inhabited α] {n : ℕ} {s s' : State T α} {t : T}

/-- The steps all threads have still to make. -/
def left (s : State T α) : ℕ := s.tally (Status.weight stepsLeft)

omit [Inhabited α] in
/-- A thread that makes one step leaves all threads together one step less to
make. -/
theorem left_put {l k : Pc α} (hl : s.th t = .run l)
    (hk : (prog (T := T) Env.calm l).Leads k) : left (s.put t (.run k)) + 1 = left s := by
  have htally := s.tally_put (Status.weight stepsLeft) t (.run k)
  rw [hl] at htally
  simp only [Status.weight] at htally
  have hone := stepsLeft_of_leads hk
  unfold left
  omega

/-- **A step is one step less to make.**  There is no loop in `push` or `pop`,
and no condition variable, so that nobody has to wait twice for one thing. -/
theorem countdown (hr : (sys Env.calm n).Reachable s) (hs : (sys Env.calm n).step s s') :
    left s' + 1 = left s := by
  obtain ⟨t, hst | hw⟩ := hs
  · cases hst with
    | lock hl ho hm => exact left_put (s := s.setOwner _ _) hl (by rw [ho]; rfl)
    | unlock hl ho hm => exact left_put (s := s.setOwner _ _) hl (by rw [ho]; rfl)
    | @condWait l c => exact c.elim
    | @reacquire m k hl hm =>
      obtain ⟨l, c, -⟩ := (owned rfl hr).woken hl
      exact c.elim
    | @condSignal l c => exact c.elim
    | @condBroadcast l c => exact c.elim
    | semWait hl ho hx => exact left_put (s := s.setSem _ _) hl (by rw [ho]; exact .inl rfl)
    | semIntr hl ho => exact left_put hl (by rw [ho]; exact .inr rfl)
    | semPost hl ho => exact left_put (s := s.setSem _ _) hl (by rw [ho]; rfl)
    | @create l start k u hl ho hu => cases l <;> cases ho
    | @join l u k l' hl ho hu he => cases l <;> cases ho
    | act hl ho hf =>
      exact left_put (s := s.record _ _ _) hl (by rw [ho]; exact ⟨_, _, _, _, hf⟩)
  · cases hw with
    | @spurious c => exact c.elim

/-- **No run goes on for ever,** however the threads are scheduled: each step
makes what is left to do smaller by one, so that a run is no longer than
that. -/
theorem no_infinite_run (run : ℕ → State T α) (h0 : (sys Env.calm n).Reachable (run 0)) :
    ¬ ∀ i, (sys Env.calm n).step (run i) (run (i + 1)) := by
  intro hstep
  have hreach : ∀ i, (sys Env.calm n).Reachable (run i) := by
    intro i
    induction i with
    | zero => exact h0
    | succ i ih => exact .step ih (hstep i)
  have hleft : ∀ i, left (run i) + i = left (run 0) := by
    intro i
    induction i with
    | zero => rfl
    | succ i ih =>
      have hone := countdown (hreach i) (hstep i)
      omega
  have := hleft (left (run 0) + 1)
  omega

/-! ### What a state without steps looks like -/

omit [Fintype T] in
/-- Every thread is at some place: there is no condition variable to sleep on,
and all threads are there from the start. -/
theorem exists_run (hs : (sys Env.calm n).Reachable s) (t : T) : ∃ l, s.th t = .run l := by
  have halive : s.th t ≠ .unborn := by
    refine alive (fun s h => ?_) hs
    obtain ⟨todo, ht⟩ := h.th t
    rw [ht]
    nofun
  cases hst : s.th t with
  | unborn => exact absurd hst halive
  | run l => exact ⟨l, rfl⟩
  | waiting c m k => exact c.elim
  | woken m k =>
    obtain ⟨l, c, -⟩ := (owned rfl hs).woken hst
    exact c.elim

/-- A thread has made all its calls. -/
def Finished (s : State T α) (t : T) : Prop := s.th t = .run (.ready [])

/-- A thread is about to take a permit for a `push`, and there is none. -/
def BlockedPush (s : State T α) (t : T) : Prop :=
  (∃ v todo, s.th t = .run (.ready (.push v :: todo))) ∧ s.sem .spaceSem = 0

/-- A thread is about to take a permit for a `pop`, and there is none. -/
def BlockedPop (s : State T α) (t : T) : Prop :=
  (∃ todo, s.th t = .run (.ready (.pop :: todo))) ∧ s.sem .dataSem = 0

/-- **A thread that stands still has finished or waits for a permit.**  It is
not at a lock: all locks are free where nobody has a step. -/
theorem blocked (hn : 1 ≤ n) (hs : (sys Env.calm n).Reachable s)
    (hq : Quiescent (prog Env.calm) s) (t : T) :
    Finished s t ∨ BlockedPush s t ∨ BlockedPop s t := by
  obtain ⟨l, hl⟩ := exists_run hs t
  rcases hq.stalled (locks rfl) prompt (owned rfl hs) (not_faulty hn hs) t with
    h | h | ⟨ht, ho⟩ | ⟨ht, ho, hx⟩ | ⟨ht, ho, -⟩ | ⟨ht, ho, -⟩ | ⟨ht, ho, hf⟩
  · rw [hl] at h
    cases h
  · rw [hl] at h
    exact h.elim
  · rename_i l'
    cases l' with
    | done => exact .inl ht
    | _ => cases ho
  · rename_i l' x k
    cases l' with
    | callPush v todo =>
      cases ho
      exact .inr (.inl ⟨⟨v, todo, ht⟩, hx⟩)
    | callPop todo =>
      cases ho
      exact .inr (.inr ⟨⟨todo, ht⟩, hx⟩)
    | _ => cases ho
  · rename_i l' start k
    cases l' <;> cases ho
  · rename_i l' u k
    cases l' <;> cases ho
  · rename_i l' f
    have hm : ∃ m, holds l' m := by
      cases l' with
      | pushStore v todo | pushMod todo => exact ⟨.pLock, rfl⟩
      | popLoad todo | popMod todo => exact ⟨.cLock, rfl⟩
      | _ => cases ho
    obtain ⟨m, hm⟩ := hm
    obtain ⟨i, o, hio⟩ := prompt.act ho hm s.data
    rw [hf i] at hio
    cases hio

/-- No permit is with a thread when all stand still: whoever has one is past
its wait and could go on. -/
theorem held_eq_zero (hn : 1 ≤ n) (hs : (sys Env.calm n).Reachable s)
    (hq : Quiescent (prog Env.calm) s) (x : Sem) :
    s.tally (Status.weight (held x)) = 0 := by
  refine St.tally_eq_zero fun t => ?_
  rcases blocked hn hs hq t with ht | ⟨⟨v, todo, ht⟩, -⟩ | ⟨⟨todo, ht⟩, -⟩
  · rw [ht]
    cases x <;> rfl
  · rw [ht]
    cases x <;> rfl
  · rw [ht]
    cases x <;> rfl

/-- **`RingQueue` cannot deadlock.**  For every capacity, any number of threads
with any finite lists of calls and any interleaving: no run goes on for ever;
in a reachable state without steps in which some call is unfinished, either all
unfinished calls are pushes without a permit and `n` values are unread, or all
are pops without a permit and none is; and nobody is at a lock there. -/
theorem no_deadlock (hn : 1 ≤ n) :
    (∀ run : ℕ → State T α, (sys Env.calm n).Reachable (run 0) →
      ¬ ∀ i, (sys Env.calm n).step (run i) (run (i + 1))) ∧
    ∀ s : State T α, (sys Env.calm n).Reachable s → Quiescent (prog Env.calm) s →
      (∀ t l m k, s.th t = .run l → prog (T := T) Env.calm l ≠ .lock m k) ∧
      ((∃ t, ¬ Finished s t) →
        ((∀ t, ¬ Finished s t → BlockedPush s t) ∧
          (stored s.events).length = (delivered s.events).length + n ∧
          (∀ t, ¬ BlockedPop s t)) ∨
        ((∀ t, ¬ Finished s t → BlockedPop s t) ∧
          (stored s.events).length = (delivered s.events).length ∧
          (∀ t, ¬ BlockedPush s t))) := by
  refine ⟨no_infinite_run, fun s hs hq => ⟨fun t l m k hl hop => ?_, fun ⟨t, ht⟩ => ?_⟩⟩
  · rcases blocked hn hs hq t with (h : s.th t = _) | ⟨⟨v, todo, h⟩, -⟩ | ⟨⟨todo, h⟩, -⟩ <;>
      · rw [hl] at h
        cases h
        cases hop
  · have hspace := space_permits hs
    have hdata := data_permits hs
    rw [held_eq_zero hn hs hq] at hspace hdata
    rcases (blocked hn hs hq t).resolve_left ht with ⟨-, hempty⟩ | ⟨-, hempty⟩
    · left
      have hnot : ∀ u, ¬ BlockedPop s u := by
        rintro u ⟨-, hx⟩
        omega
      refine ⟨fun u hu => ?_, by omega, hnot⟩
      exact ((blocked hn hs hq u).resolve_left hu).resolve_right (hnot u)
    · right
      have hnot : ∀ u, ¬ BlockedPush s u := by
        rintro u ⟨-, hx⟩
        omega
      refine ⟨fun u hu => ?_, by omega, hnot⟩
      exact ((blocked hn hs hq u).resolve_left hu).resolve_left (hnot u)

end reachable

/-- One slot, one thread with two values to push, and one with nothing to
do. -/
def twoPushes : State (Fin 2) ℕ where
  owner _ := none
  sem := Sem.value 1
  th t := .run (.ready (if t = caller then [.push 7, .push 8] else []))
  data := .new 1
  log := []

/-- The second `push` waits for a slot, and the one value is unread: with one
slot and no `pop`, this is where the run has to end. -/
theorem no_deadlock_one : ∃ s : State (Fin 2) ℕ, (sys Env.calm 1).Reachable s ∧
    Quiescent (prog Env.calm) s ∧ BlockedPush s 0 ∧
    (stored s.events).length = (delivered s.events).length + 1 := by
  have hinit : (sys Env.calm 1).Reachable twoPushes := .init ⟨fun _ => rfl, fun _ => rfl,
    fun t => ⟨_, rfl⟩, rfl, rfl⟩
  obtain ⟨s, hs, h0, h1, hspace, hdata⟩ : ∃ s, replay (prog Env.calm) twoPushes
      [(caller, .go), (caller, .go), (caller, .input false), (caller, .input false),
        (caller, .go), (caller, .go)] = some s ∧
      s.th 0 = .run (.ready [.push 8]) ∧ s.th 1 = .run (.ready []) ∧ s.sem .spaceSem = 0 ∧
      s.sem .dataSem = 1 :=
    ⟨_, rfl, rfl, rfl, rfl, rfl⟩
  have hreach := replay_reachable _ hinit hs
  have hq : Quiescent (prog Env.calm) s := by
    intro t
    have hst : Stalled (prog Env.calm) s t := by
      fin_cases t
      · exact .permit h0 rfl hspace
      · exact .done h1 rfl
    exact hst.not_step
  have hblocked : BlockedPush s 0 := ⟨⟨8, [], h0⟩, hspace⟩
  have hunfinished : ¬ Finished s 0 := by
    intro h
    rw [Finished, h0] at h
    cases h
  rcases ((no_deadlock (by decide)).2 s hreach hq).2 ⟨0, hunfinished⟩ with
    ⟨-, hunread, -⟩ | ⟨hpop, -⟩
  · exact ⟨s, hreach, hq, hblocked, hunread⟩
  · obtain ⟨-, hx⟩ := hpop 0 hunfinished
    rw [hdata] at hx
    cases hx

end RingQueue
end OSNetWorkCode
