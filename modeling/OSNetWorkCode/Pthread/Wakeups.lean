/-
# No wake-up is lost: a counting rule

Threads sleep on a condition variable `c` because there is nothing to do, and a
call that makes something to do signals.  Whether the signals are enough
although a woken thread may find its work taken, and a signal with nobody
asleep is lost, is a matter of counting: `debt d` is how much there is to do,
and `w l` says whether a thread standing at `l` will see to one piece of it, by
doing it or by signalling somebody.  A thread woken and not yet running again
counts as where it returns to.

`Wakeups P R c slack debt w` lists what each call has to satisfy.  Its
conclusion `Wakeups.debt_le` is that whenever somebody sleeps on `c`, the debt
exceeds the number of threads that will see to it by at most `slack`.  With
`slack = 0` no wake-up is lost; a program that does not signal for the first
few pieces of work has them as slack.
-/

import OSNetWorkCode.Pthread.Ledger
import OSNetWorkCode.Pthread.Locks

namespace OSNetWorkCode
namespace Pthread

variable {T M S C D L I E : Type*}

/-- Neither an access nor a wait, and no call that wakes sleepers of `c`. -/
def Op.Plain (o : Op T M S C D L I E) (c : C) : Prop :=
  match o with
  | .act _ | .condWait .. => False
  | .condSignal c' _ | .condBroadcast c' _ => c' ≠ c
  | _ => True

/-- What a thread will see to: nothing while it sleeps. -/
def Status.awake (w : L → ℕ) : Status M C L → ℕ
  | .run l | .woken _ l => w l
  | _ => 0

/-- A delivered wake-up does not lower what a thread will see to; a sleeper
sees to nothing. -/
theorem Status.awake_le_wakeUp (w : L → ℕ) (st : Status M C L) :
    st.awake w ≤ st.wakeUp.awake w := by
  cases st <;> simp [Status.awake, Status.wakeUp]

/-- Who was woken sleeps no more. -/
theorem Status.not_waitsOn_wakeUp (c : C) (st : Status M C L) : ¬ st.wakeUp.WaitsOn c := by
  cases st <;> exact id

/-- Whoever sleeps after a wake-up slept before, and was not woken. -/
theorem St.waitsOn_of_wake [DecidableEq T] {s : St T M S C D L E} {ws : Finset T} {u : T} {c : C}
    (h : ((s.wake ws).th u).WaitsOn c) : u ∉ ws ∧ (s.th u).WaitsOn c := by
  rw [wake_th] at h
  split_ifs at h with hu
  · exact absurd h (Status.not_waitsOn_wakeUp c _)
  · exact ⟨hu, h⟩

/-- Each call of `P` keeps the balance of debt and threads that see to it, in
states where `R` holds. -/
structure Wakeups (P : L → Op T M S C D L I E) (R : St T M S C D L E → Prop) (c : C) (slack : ℕ)
    (debt : D → ℕ) (w : L → ℕ) : Prop where
  signal : ∀ {l k}, P l = .condSignal c k → w l ≤ w k + 1
  wake : ∀ {l m k}, P l = .condWait c m k → 1 ≤ w k
  sleep : ∀ {s t l m k}, R s → s.th t = .run l → P l = .condWait c m k → debt s.data ≤ slack
  others : ∀ {l c' m k}, P l = .condWait c' m k → c' ≠ c → w l = 0
  stay : ∀ {l k}, (P l).Leads k → (P l).Plain c → w l ≤ w k
  act : ∀ {s : St T M S C D L E} {t l f i d k ev}, R s → s.th t = .run l → P l = .act f →
    f i s.data = some (.next d k ev) → debt d + w l ≤ debt s.data + w k ∨ debt d ≤ slack

/-- The balance of debt and threads that see to it. -/
def Covered [Fintype T] (c : C) (slack : ℕ) (debt : D → ℕ) (w : L → ℕ) (s : St T M S C D L E) :
    Prop :=
  (∃ u, (s.th u).WaitsOn c) → debt s.data ≤ slack + s.tally (Status.awake w)

section rule

variable [Fintype T] [DecidableEq T] [DecidableEq M] [DecidableEq S]
variable {P : L → Op T M S C D L I E} {R : St T M S C D L E → Prop} {c : C} {slack : ℕ}
variable {debt : D → ℕ} {w : L → ℕ} {s s' : St T M S C D L E} {t : T}

omit [DecidableEq M] [DecidableEq S] in
/-- A thread moves on without falling asleep and sees to no less than before.
If it was asleep itself there may be nobody asleep now, and then nothing is
claimed. -/
theorem Covered.put (h : Covered c slack debt w s) {st : Status M C L}
    (hw : (s.th t).awake w ≤ st.awake w) (hc : ¬ st.WaitsOn c) :
    Covered c slack debt w (s.put t st) := by
  rintro ⟨u, hu⟩
  have hut : u ≠ t := fun e => hc (by simpa [e] using hu)
  have hold := h ⟨u, by simpa [hut] using hu⟩
  have htally := s.tally_put (Status.awake w) t st
  rw [St.put_data]
  omega

omit [DecidableEq M] [DecidableEq S] in
/-- Waking sleepers raises what is seen to, if it changes it at all, and makes
no debt. -/
theorem Covered.wake (h : Covered c slack debt w s) (ws : Finset T) :
    Covered c slack debt w (s.wake ws) := by
  rintro ⟨u, hu⟩
  have hold := h ⟨u, (St.waitsOn_of_wake hu).2⟩
  have hle := St.tally_wake_le (s := s) ws (Status.awake_le_wakeUp w)
  rw [St.wake_data]
  omega

omit [DecidableEq M] [DecidableEq S] in
/-- Somebody is woken, which pays for the signal: the thread that signals sees
to one piece of work less, the woken one to one more.  Where nobody slept there
is no claim to pay for. -/
theorem Covered.signal (h : Covered c slack debt w s) {l k : L} {ws : Finset T}
    (hl : s.th t = .run l) (hk : w l ≤ w k + 1) (hws : ∀ u ∈ ws, (s.th u).WaitsOn c)
    (hne : (∃ u, (s.th u).WaitsOn c) → ws.Nonempty)
    (hwake : ∀ u, (s.th u).WaitsOn c → (s.th u).awake w < (s.th u).wakeUp.awake w) :
    Covered c slack debt w ((s.wake ws).put t (.run k)) := by
  rintro ⟨u, hu⟩
  have hut : u ≠ t := fun e => by simp [e, Status.WaitsOn] at hu
  rw [St.put_th, Function.update_of_ne hut] at hu
  obtain ⟨-, hu⟩ := St.waitsOn_of_wake hu
  have hold := h ⟨u, hu⟩
  obtain ⟨v, hv⟩ := hne ⟨u, hu⟩
  have hlt := St.tally_wake_lt (s := s) (Status.awake_le_wakeUp w) ⟨v, hv, hwake v (hws v hv)⟩
  have htally := (s.wake ws).tally_put (Status.awake w) t (.run k)
  rw [St.wake_th_run _ _ _ hl] at htally
  simp only [Status.awake] at htally
  rw [St.put_data, St.wake_data]
  omega

/-- **A step keeps the balance.**  An access may make a debt only if its thread
then sees to it, and falling asleep is allowed where the debt is within the
slack. -/
theorem Wakeups.step (H : Wakeups P R c slack debt w) {holds : L → M → Prop} (ho : Owned P holds s)
    (hR : R s) (h : Covered c slack debt w s) (hs : Step P s t s') :
    Covered c slack debt w s' := by
  have hstay : ∀ {l k}, s.th t = .run l → (P l).Leads k → (P l).Plain c →
      (s.th t).awake w ≤ (Status.run k : Status M C L).awake w := fun hl hk hp => by
    rw [hl]
    exact H.stay hk hp
  have hrun : ∀ {k}, ¬ (Status.run k : Status M C L).WaitsOn c := id
  cases hs with
  | lock hl hop hm =>
    exact h.put (hstay hl (by rw [hop]; rfl) (by rw [hop]; trivial)) hrun
  | unlock hl hop hm =>
    exact h.put (hstay hl (by rw [hop]; rfl) (by rw [hop]; trivial)) hrun
  | @condWait l c' m k hl hop hm =>
    by_cases hc : c' = c
    · subst hc
      intro _
      have := H.sleep hR hl hop
      exact le_add_right this
    · refine h.put ?_ hc
      rw [hl]
      exact (H.others hop hc).le
  | reacquire hl hm =>
    refine h.put ?_ hrun
    rw [hl]
    exact le_rfl
  | @condSignal l c' k ws hl hop hws hne =>
    by_cases hc : c' = c
    · subst hc
      refine h.signal hl (H.signal hop) hws hne fun u hu => ?_
      cases hst : s.th u with
      | waiting c'' m k' =>
        rw [hst] at hu
        obtain ⟨l', hl'⟩ := ho.waiting hst
        obtain rfl : c'' = c' := hu
        exact H.wake hl'
      | _ =>
        rw [hst] at hu
        exact hu.elim
    · refine (h.wake ws).put ?_ hrun
      rw [St.wake_th_run _ _ _ hl]
      exact H.stay (by rw [hop]; rfl) (by rw [hop]; exact hc)
  | @condBroadcast l c' k ws hl hop hws =>
    by_cases hc : c' = c
    · subst hc
      rintro ⟨u, hu⟩
      have hut : u ≠ t := fun e => by simp [e, Status.WaitsOn] at hu
      rw [St.put_th, Function.update_of_ne hut] at hu
      obtain ⟨hmem, hu⟩ := St.waitsOn_of_wake hu
      exact absurd ((hws u).2 hu) hmem
    · refine (h.wake ws).put ?_ hrun
      rw [St.wake_th_run _ _ _ hl]
      exact H.stay (by rw [hop]; rfl) (by rw [hop]; exact hc)
  | semWait hl hop hx =>
    exact h.put (hstay hl (by rw [hop]; exact .inl rfl) (by rw [hop]; trivial)) hrun
  | semIntr hl hop =>
    exact h.put (hstay hl (by rw [hop]; exact .inr rfl) (by rw [hop]; trivial)) hrun
  | semPost hl hop =>
    exact h.put (hstay hl (by rw [hop]; rfl) (by rw [hop]; trivial)) hrun
  | @create l start k u hl hop hu =>
    have hut : t ≠ u := fun e => by
      rw [← e, hl] at hu
      cases hu
    refine (h.put (by simp [hu, Status.awake]) hrun).put ?_ hrun
    have hl' : (s.put u (.run start)).th t = .run l := by simpa [hut] using hl
    rw [hl']
    exact H.stay (by rw [hop]; rfl) (by rw [hop]; trivial)
  | join hl hop hu he =>
    exact h.put (hstay hl (by rw [hop]; rfl) (by rw [hop]; trivial)) hrun
  | @act l f i d k ev hl hop hf =>
    rintro ⟨u, hu⟩
    have hut : u ≠ t := fun e => by simp [e, Status.WaitsOn] at hu
    have hold := h ⟨u, by simpa [hut] using hu⟩
    have htally := s.tally_put (Status.awake w) t (.run k)
    rw [hl] at htally
    simp only [Status.awake] at htally
    have hact := H.act hR hl hop hf
    rw [St.put_data, St.record_data]
    change debt d ≤ slack + (s.put t (.run k)).tally (Status.awake w)
    omega

/-- **No wake-up is lost but for the slack:** while somebody sleeps on `c`, at
most `slack` pieces of work are left that no thread will see to.  A woken
thread that finds its work taken goes back to sleep only where there is none
left. -/
theorem Wakeups.debt_le (H : Wakeups P R c slack debt w) {holds : L → M → Prop}
    {init : St T M S C D L E → Prop} (ho : ∀ s, (system P init).Reachable s → Owned P holds s)
    (hR : ∀ s, (system P init).Reachable s → R s)
    (hinit : ∀ s, init s → ∀ u, ¬ (s.th u).WaitsOn c) (hs : (system P init).Reachable s) :
    Covered c slack debt w s := by
  refine hs.invariant (fun s h ⟨u, hu⟩ => absurd hu (hinit s h u)) ?_
  rintro s s' hr h ⟨t, hst | hw⟩
  · exact H.step (ho s hr) (hR s hr) h hst
  · obtain ⟨hl⟩ := hw
    refine h.put ?_ id
    rw [hl]
    exact Nat.zero_le _

end rule

end Pthread
end OSNetWorkCode
