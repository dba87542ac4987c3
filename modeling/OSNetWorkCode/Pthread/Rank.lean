/-
# Programs whose every run ends

A `Ranked` program gives a number to each control point and to the data, and
every call of it makes the sum smaller: the thread comes nearer to its end, or
the data pays for its going back.  A thread that waits in a loop goes back as
well each time it is woken.  For that the thread pays that signals: a `price`
for each thread, as many as there are, since `pthread_cond_signal` may wake
more than one.

Then every run comes to a state where no thread has a step, and to whatever
holds there (`Ranked.inevitable`), however the threads are scheduled.  Nobody
pays for a spurious wake-up, and there may be as many as one likes, so the runs
are those `undisturbed` from some reachable state on.  Where the program sleeps
on no condition variable they are all runs (`Ranked.inevitable_of_awake`).
-/

import OSNetWorkCode.Lib.Inevitable
import OSNetWorkCode.Pthread.Ledger

namespace OSNetWorkCode
namespace Pthread

variable {T M S C D L I E : Type*}

/-- The call leads its thread on and does nothing to others or to the data. -/
def Op.Alone : Op T M S C D L I E → Prop
  | .lock .. | .unlock .. | .semWait .. | .semPost .. | .join .. => True
  | _ => False

/-- Every call of `P` makes the rank smaller; an access does so where `J` holds
before it. -/
structure Ranked [Fintype T] (P : L → Op T M S C D L I E) (J : L → D → Prop) (loc : L → ℕ)
    (data : D → ℕ) (price : ℕ) : Prop where
  alone : ∀ {l k}, (P l).Alone → (P l).Leads k → loc k < loc l
  wait : ∀ {l c m k}, P l = .condWait c m k → loc k + 1 - price < loc l
  signal : ∀ {l c k}, P l = .condSignal c k ∨ P l = .condBroadcast c k →
    loc k + Fintype.card T * price < loc l
  create : ∀ {l start k}, P l = .create start k → loc k + loc start < loc l
  act : ∀ {l f i d d' k ev}, P l = .act f → f i d = some (.next d' k ev) → J l d →
    loc k + data d' < loc l + data d

/-- What a thread has still to pay: a sleeper has `price` less than it will
have when woken. -/
def Status.due (loc : L → ℕ) (price : ℕ) : Status M C L → ℕ
  | .unborn => 0
  | .run l => loc l
  | .waiting _ _ k => loc k + 1 - price
  | .woken _ k => loc k + 1

/-- Who is woken has one price more to pay at most, and any other thread
nothing more. -/
theorem Status.due_wakeUp_le (loc : L → ℕ) (price : ℕ) (st : Status M C L) :
    st.wakeUp.due loc price ≤ st.due loc price + price := by
  cases st <;> simp only [Status.wakeUp, Status.due] <;> omega

/-- The rank of a state. -/
def St.rank [Fintype T] (loc : L → ℕ) (data : D → ℕ) (price : ℕ) (s : St T M S C D L E) : ℕ :=
  s.tally (Status.due loc price) + data s.data

/-- Not yet alive, or at some place. -/
def Status.Awake (st : Status M C L) : Prop := st = .unborn ∨ ∃ l, st = .run l

section reachable

variable [DecidableEq T] {P : L → Op T M S C D L I E} {J : L → D → Prop}
variable {loc : L → ℕ} {data : D → ℕ} {price : ℕ}
variable {init : St T M S C D L E → Prop} {s s' : St T M S C D L E} {t : T}

/-- A thread that was put at a place is awake, and so are the others if they
were. -/
theorem awake_put (h : ∀ u, (s.th u).Awake) (l : L) : ∀ u, ((s.put t (.run l)).th u).Awake :=
  (Function.forall_update_iff s.th fun _ st => st.Awake).2 ⟨.inr ⟨l, rfl⟩, fun u _ => h u⟩

/-- Where nobody sleeps there is nobody to wake, so that a signal changes
nothing. -/
theorem awake_wake (h : ∀ u, (s.th u).Awake) (ws : Finset T) : ∀ u, ((s.wake ws).th u).Awake := by
  intro u
  rw [St.wake_th]
  split_ifs
  · rcases h u with hu | ⟨l, hu⟩ <;> rw [hu]
    · exact .inl rfl
    · exact .inr ⟨l, rfl⟩
  · exact h u

variable [DecidableEq M] [DecidableEq S]

/-- The runs that go on from a reachable state in which nobody wakes up by
itself any more. -/
def undisturbed (P : L → Op T M S C D L I E) (init : St T M S C D L E → Prop) :
    System (St T M S C D L E) where
  init := (system P init).Reachable
  step s s' := ∃ t, Step P s t s'

/-- A state of an undisturbed run is one of the system: only spurious wake-ups
are left out.  So the invariants hold there too. -/
theorem undisturbed_reachable (hs : (undisturbed P init).Reachable s) :
    (system P init).Reachable s := by
  refine hs.invariant (I := (system P init).Reachable) (fun _ h => h) ?_
  rintro s s' - h ⟨t, hst⟩
  exact h.step ⟨t, .inl hst⟩

/-- **Who never waits is never asleep.**  A program without condition variables
has no spurious wake-ups either, and its undisturbed runs are all its runs. -/
theorem awake_of_reachable (hwait : ∀ l c m k, P l ≠ .condWait c m k)
    (hinit : ∀ s, init s → ∀ t, (s.th t).Awake) (hs : (system P init).Reachable s) :
    ∀ t, (s.th t).Awake := by
  refine hs.invariant (I := fun s => ∀ t, (s.th t).Awake) hinit ?_
  rintro s s' - h ⟨t, hst | hw⟩
  · cases hst with
    | condWait hl ho hm => exact absurd ho (hwait _ _ _ _)
    | lock | unlock | reacquire | semWait | semIntr | semPost | join | act => exact awake_put h _
    | condSignal ws | condBroadcast ws => exact awake_put (awake_wake h ws) _
    | create => exact awake_put (awake_put h _) _
  · obtain ⟨hl⟩ := hw
    rcases h t with ht | ⟨l, ht⟩ <;> rw [hl] at ht <;> cases ht

variable [Fintype T]

omit [DecidableEq M] [DecidableEq S] in
/-- A thread that has less to pay makes the rank of the state smaller, if
nothing else changes. -/
theorem rank_put_lt {st : Status M C L} (hlt : st.due loc price < (s.th t).due loc price) :
    (s.put t st).rank loc data price < s.rank loc data price := by
  have htally := s.tally_put (Status.due loc price) t st
  unfold St.rank
  rw [St.put_data]
  omega

omit [DecidableEq M] [DecidableEq S] in
/-- **Waking costs a price for each thread at most.**  There is no better
bound: `pthread_cond_signal` may wake more sleepers than one, and a broadcast
wakes them all. -/
theorem St.tally_wake_le_add {g : Status M C L → ℕ} (ws : Finset T)
    (hle : ∀ st, g st.wakeUp ≤ g st + price) :
    (s.wake ws).tally g ≤ s.tally g + Fintype.card T * price := by
  have hsum : (s.wake ws).tally g ≤ ∑ t, (g (s.th t) + price) :=
    Finset.sum_le_sum fun w _ => by
      rw [wake_th]
      split_ifs
      · exact hle _
      · exact Nat.le_add_right _ _
  rwa [Finset.sum_add_distrib, Finset.sum_const, Finset.card_univ, Nat.nsmul_eq_mul] at hsum

omit [DecidableEq M] [DecidableEq S] in
/-- **Who signals pays for whom it wakes.**  It has the price of all threads
ready at that place, however many are woken. -/
theorem Ranked.signal_lt (H : Ranked P J loc data price) {l k : L} {c : C} (ws : Finset T)
    (hl : s.th t = .run l) (ho : P l = .condSignal c k ∨ P l = .condBroadcast c k) :
    ((s.wake ws).put t (.run k)).rank loc data price < s.rank loc data price := by
  have hpaid := H.signal ho
  have hwoken := s.tally_wake_le_add ws (Status.due_wakeUp_le loc price)
  have htally := (s.wake ws).tally_put (Status.due loc price) t (.run k)
  rw [St.wake_th_run s t ws hl] at htally
  simp only [Status.due] at htally
  unfold St.rank
  rw [St.put_data, St.wake_data]
  omega

/-- **Each step makes the rank smaller.**  An access may let the data pay for
the thread's going back, and that is the only call that looks at the data. -/
theorem Ranked.step_lt (H : Ranked P J loc data price)
    (hJ : ∀ t l, s.th t = .run l → J l s.data) (hs : Step P s t s') :
    s'.rank loc data price < s.rank loc data price := by
  have hput : ∀ (s₀ : St T M S C D L E) {l k : L}, s₀.th t = .run l → (P l).Alone →
      (P l).Leads k → (s₀.put t (.run k)).rank loc data price < s₀.rank loc data price :=
    fun _ _ _ hl halone hk => rank_put_lt (by rw [hl]; exact H.alone halone hk)
  cases hs with
  | @lock l m k hl ho hm =>
    exact hput (s.setOwner m _) hl (by rw [ho]; trivial) (by rw [ho]; rfl)
  | @unlock l m k hl ho hm =>
    exact hput (s.setOwner m _) hl (by rw [ho]; trivial) (by rw [ho]; rfl)
  | @condWait l c m k hl ho hm =>
    refine rank_put_lt (s := s.setOwner m _) ?_
    rw [St.setOwner_th, hl]
    exact H.wait ho
  | @reacquire m k hl hm =>
    refine rank_put_lt (s := s.setOwner m _) ?_
    rw [St.setOwner_th, hl]
    exact Nat.lt_succ_self _
  | condSignal ws hl ho => exact H.signal_lt ws hl (.inl ho)
  | condBroadcast ws hl ho => exact H.signal_lt ws hl (.inr ho)
  | @semWait l x k intr v hl ho hx =>
    exact hput (s.setSem x v) hl (by rw [ho]; trivial) (by rw [ho]; exact .inl rfl)
  | semIntr hl ho => exact hput s hl (by rw [ho]; trivial) (by rw [ho]; exact .inr rfl)
  | @semPost l x k hl ho =>
    exact hput (s.setSem x _) hl (by rw [ho]; trivial) (by rw [ho]; rfl)
  | join hl ho hu he => exact hput s hl (by rw [ho]; trivial) (by rw [ho]; rfl)
  | @create l start k u hl ho hu =>
    have hne : t ≠ u := fun heq => by
      rw [← heq, hl] at hu
      cases hu
    have hlt := H.create ho
    have hborn := s.tally_put (Status.due loc price) u (.run start)
    have hself := (s.put u (.run start)).tally_put (Status.due loc price) t (.run k)
    rw [hu] at hborn
    rw [St.put_th, Function.update_of_ne hne, hl] at hself
    simp only [Status.due] at hborn hself
    unfold St.rank
    rw [St.put_data, St.put_data]
    omega
  | @act l f i d k ev hl ho hf =>
    have hlt := H.act ho hf (hJ t l hl)
    have htally := (s.record t d ev).tally_put (Status.due loc price) t (.run k)
    rw [St.record_th, hl, St.tally_record] at htally
    simp only [Status.due] at htally
    unfold St.rank
    rw [St.put_data, St.record_data]
    omega

/-- **Every undisturbed run comes to what holds where nobody has a step.**  The
rank falls with each step, so that there is an end, and a state without steps
satisfies `Q`. -/
theorem Ranked.inevitable (H : Ranked P J loc data price) {Q : St T M S C D L E → Prop}
    (hJ : ∀ s, (system P init).Reachable s → ∀ t l, s.th t = .run l → J l s.data)
    (hQ : ∀ s, (system P init).Reachable s → Quiescent P s → Q s)
    (hs : (system P init).Reachable s) : (undisturbed P init).Inevitable Q s := by
  have hs' : (undisturbed P init).Reachable s := .init hs
  refine hs'.inevitable (St.rank loc data price) (fun s s' hr hstep _ => ?_) fun s hr hnot => ?_
  · obtain ⟨t, hst⟩ := hstep
    exact H.step_lt (hJ s (undisturbed_reachable hr)) hst
  · by_contra hnone
    exact hnot (hQ s (undisturbed_reachable hr) fun t s' hst => hnone ⟨s', t, hst⟩)

/-- **Without waits every run does.**  Nobody is ever asleep, so that no
spurious wake-up has to be left out. -/
theorem Ranked.inevitable_of_awake (H : Ranked P J loc data price) {Q : St T M S C D L E → Prop}
    (hwait : ∀ l c m k, P l ≠ .condWait c m k) (hinit : ∀ s, init s → ∀ t, (s.th t).Awake)
    (hJ : ∀ s, (system P init).Reachable s → ∀ t l, s.th t = .run l → J l s.data)
    (hQ : ∀ s, (system P init).Reachable s → Quiescent P s → Q s)
    (hs : (system P init).Reachable s) : (system P init).Inevitable Q s := by
  refine hs.inevitable (St.rank loc data price) (fun s s' hr hstep _ => ?_) fun s hr hnot => ?_
  · obtain ⟨t, hst | hw⟩ := hstep
    · exact H.step_lt (hJ s hr) hst
    · obtain ⟨hl⟩ := hw
      rcases awake_of_reachable hwait hinit hr t with ht | ⟨l, ht⟩ <;> rw [hl] at ht <;> cases ht
  · by_contra hnone
    exact hnot (hQ s hr fun t s' hst => hnone ⟨s', t, .inl hst⟩)

end reachable

end Pthread
end OSNetWorkCode
