/-
# One thread that starts the others

Of a program often one thread, `main`, starts all the others and does not wait
on a condition variable.  A `Starter` tells its places from those of the others
and says how many threads it has still to start at each.  Then as many threads
are unborn in every reachable state (`Starter.main_place`), and once `main` is
through all are alive (`Starter.all_born`).
-/

import OSNetWorkCode.Pthread.Ledger
import OSNetWorkCode.Pthread.Places

namespace OSNetWorkCode
namespace Pthread

variable {T M S C D L I E : Type*}

/-- The thread at the places `A` starts the others, which keep to the places
`B`; from `l` on it starts `left l` of them. -/
structure Starter (P : L → Op T M S C D L I E) (A B : L → Prop) (left : L → ℕ) : Prop where
  main : Closed P A
  others : Closed P B
  wait : ∀ {l c m k}, P l = .condWait c m k → ¬ A l
  create : ∀ {l start k}, P l = .create start k → ¬ B l ∧ B start ∧ left l = left k + 1
  stay : ∀ {l k}, A l → (∀ start k', P l ≠ .create start k') → (P l).Leads k → left k = left l

/-- `main` is at a place of its own and has the others still to start. -/
structure Begun [Fintype T] (A : L → Prop) (left : L → ℕ) (main : T) (s : St T M S C D L E) :
    Prop where
  runs : ∃ l, s.th main = .run l ∧ A l ∧ s.tally Status.toCome = left l
  others : ∀ t, t ≠ main → s.th t = .unborn

section reachable

variable [Fintype T] [DecidableEq T] [DecidableEq M] [DecidableEq S]
variable {P : L → Op T M S C D L I E} {A B : L → Prop} {left : L → ℕ} {main : T}
variable {init : St T M S C D L E → Prop} {s : St T M S C D L E}

/-- The others are unborn or at their places: no call leads out of these, and a
new thread is started at one of them. -/
theorem Starter.other_place (H : Starter P A B left) (hinit : ∀ s, init s → Begun A left main s)
    (hs : (system P init).Reachable s) {t : T} (ht : t ≠ main) :
    s.th t = .unborn ∨ (s.th t).In B :=
  Closed.born H.others (fun h => (H.create h).2.1)
    (fun s h => .inl ((hinit s h).others t ht)) hs

/-- **`main` runs, and as many threads are unborn as it has still to start.**
It is never asleep, since there is no wait at its places, and nobody else
starts a thread. -/
theorem Starter.main_place (H : Starter P A B left) (hinit : ∀ s, init s → Begun A left main s)
    (hs : (system P init).Reachable s) :
    ∃ l, s.th main = .run l ∧ A l ∧ s.tally Status.toCome = left l := by
  refine hs.invariant
    (I := fun s => ∃ l, s.th main = .run l ∧ A l ∧ s.tally Status.toCome = left l)
    (fun s h => (hinit s h).runs) ?_
  rintro s s' hr ⟨l, hl, hA, hcount⟩ ⟨t, hst | hw⟩
  · rcases hst.tally_toCome with ⟨l', start, k, ht, hop, hk, htally⟩ | ⟨hnot, htally⟩
    · -- nobody but `main` makes this call
      have hmain : t = main := by
        by_contra hne
        rcases H.other_place hinit hr hne with h | ⟨l₀, hplace, hB⟩
        · rw [ht] at h
          cases h
        · rw [ht] at hplace
          obtain rfl := Option.some.inj hplace
          exact (H.create hop).1 hB
      subst hmain
      rw [hl] at ht
      obtain rfl := Status.run.inj ht
      have hleft := (H.create hop).2.2
      exact ⟨k, hk, H.main hA (by rw [hop]; rfl), by omega⟩
    · by_cases hmain : t = main
      · subst hmain
        obtain ⟨k, hk, hleads⟩ := hst.leads hl fun c m k hop => H.wait hop hA
        refine ⟨k, hk, H.main hA hleads, ?_⟩
        rw [htally, hcount, H.stay hA (fun start k => hnot l start k hl) hleads]
      · exact ⟨l, hst.run_stays (Ne.symm hmain) hl, hA, htally.trans hcount⟩
  · have hmain : main ≠ t := by
      rintro rfl
      obtain ⟨hl'⟩ := hw
      rw [hl] at hl'
      cases hl'
    refine ⟨l, ?_, hA, hw.tally_toCome.trans hcount⟩
    obtain ⟨-⟩ := hw
    rw [St.put_th, Function.update_of_ne hmain, hl]

/-- **Once `main` has started all threads they are alive,** and at their own
places.  So from there on a thread that is told something, or waited for,
exists. -/
theorem Starter.all_born (H : Starter P A B left) (hinit : ∀ s, init s → Begun A left main s)
    (hs : (system P init).Reachable s) {l : L} (hl : s.th main = .run l) (hleft : left l = 0)
    {t : T} (ht : t ≠ main) : (s.th t).In B := by
  refine (H.other_place hinit hs ht).resolve_left fun hunborn => ?_
  obtain ⟨l', hl', -, hcount⟩ := H.main_place hinit hs
  obtain rfl := Status.run.inj (hl.symm.trans hl')
  have hle := s.le_tally Status.toCome t
  rw [hunborn, hcount, hleft] at hle
  exact absurd hle (Nat.not_succ_le_zero 0)

/-- **Where `main` starts a thread there is one to start.**  So
`pthread_create` does not block it, for want of threads, in the states of the
system. -/
theorem Starter.exists_unborn (H : Starter P A B left) (hinit : ∀ s, init s → Begun A left main s)
    (hs : (system P init).Reachable s) {l start k : L} (hl : s.th main = .run l)
    (hop : P l = .create start k) : ∃ u, s.th u = .unborn := by
  by_contra hnone
  obtain ⟨l', hl', -, hcount⟩ := H.main_place hinit hs
  obtain rfl := Status.run.inj (hl.symm.trans hl')
  have hleft := (H.create hop).2.2
  have hzero : s.tally Status.toCome = 0 := by
    refine St.tally_eq_zero fun t => ?_
    cases hst : s.th t with
    | unborn => exact absurd ⟨t, hst⟩ hnone
    | run l | waiting c m k | woken m k => rfl
  omega

end reachable

end Pthread
end OSNetWorkCode
