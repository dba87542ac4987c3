/-
# Counting threads, and quantities that no step changes

`St.tally g` adds up `g` over the threads: how many stand where `g` is `1`, how
many permits they carry together.  A step changes one thread, so a tally
changes by the difference at that thread (`St.tally_put`); waking sleepers
changes it by the difference at the sleepers (`St.tally_wake_eq`,
`St.tally_wake_lt`).

A ledger is a quantity that every call of a program conserves: a weight for
each control point, each permit of a semaphore, each event and the data.
Taking a permit moves its weight from the semaphore to the thread, posting
moves it back, and an access to the data moves weight between the thread, the
data and the events.  `Ledger.balance` says that the total is the one of the
start state in every reachable state, so a balance sheet of permits is checked
call by call.
-/

import Mathlib.Algebra.BigOperators.Group.Finset.Basic
import Mathlib.Algebra.BigOperators.Ring.Finset
import Mathlib.Algebra.Order.BigOperators.Group.Finset
import Mathlib.Algebra.Order.Ring.Int
import Mathlib.Data.Fintype.BigOperators
import OSNetWorkCode.Pthread.Locks

namespace OSNetWorkCode
namespace Pthread

open Function Finset

variable {T M S C D L I E : Type*}

/-- One value changes: a sum over all of them changes by the difference there.
It is stated without subtraction, so that it serves for numbers of either
kind. -/
theorem sum_update_add {ι β A : Type*} [Fintype ι] [DecidableEq ι] [AddCommMonoid A]
    (g : ι → β → A) (f : ι → β) (i : ι) (b : β) :
    ∑ j, g j (update f i b j) + g i (f i) = ∑ j, g j (f j) + g i b := by
  rw [← sum_erase_add _ _ (mem_univ i), ← sum_erase_add univ (fun j => g j (f j)) (mem_univ i),
    update_self]
  have hrest : ∑ j ∈ univ.erase i, g j (update f i b j) = ∑ j ∈ univ.erase i, g j (f j) :=
    sum_congr rfl fun j hj => by rw [update_of_ne (ne_of_mem_erase hj)]
  rw [hrest, add_right_comm]

section tally

variable [Fintype T] {A : Type*} [AddCommMonoid A]

/-- The sum of `g` over the threads. -/
def St.tally (g : Status M C L → A) (s : St T M S C D L E) : A := ∑ t, g (s.th t)

/-! What leaves the threads where they are leaves the tally. -/

@[simp] theorem St.tally_record (g : Status M C L → A) (s : St T M S C D L E) (t : T) (d : D)
    (ev : List E) : (s.record t d ev).tally g = s.tally g := rfl

@[simp] theorem St.tally_setOwner [DecidableEq M] (g : Status M C L → A) (s : St T M S C D L E)
    (m : M) (o : Option T) : (s.setOwner m o).tally g = s.tally g := rfl

@[simp] theorem St.tally_setSem [DecidableEq S] (g : Status M C L → A) (s : St T M S C D L E)
    (x : S) (v : ℕ) : (s.setSem x v).tally g = s.tally g := rfl

variable [DecidableEq T]

/-- **One thread moves:** the tally changes by the difference at that thread.
Every step of a thread is followed with this rule. -/
theorem St.tally_put (g : Status M C L → A) (s : St T M S C D L E) (t : T) (st : Status M C L) :
    (s.put t st).tally g + g (s.th t) = s.tally g + g st :=
  sum_update_add (fun _ => g) s.th t st

/-- A move between statuses of the same value leaves the tally.  Most steps are
of this sort, for any one quantity. -/
theorem St.tally_put_eq (g : Status M C L → A) (s : St T M S C D L E) (t : T)
    (st : Status M C L) (h : g st = g (s.th t)) : (s.put t st).tally g = s.tally g := by
  refine sum_congr rfl fun u _ => ?_
  by_cases hu : u = t
  · subst hu
    simpa using h
  · simp [hu]

/-- Waking sleepers leaves the tally of what does not tell sleepers from woken
threads, such as anything that is said of their places. -/
theorem St.tally_wake_eq (g : Status M C L → A) (s : St T M S C D L E) (ws : Finset T)
    (h : ∀ st, g st.wakeUp = g st) : (s.wake ws).tally g = s.tally g := by
  refine sum_congr rfl fun w _ => ?_
  rw [wake_th]
  split_ifs
  · exact h _
  · rfl

end tally

section count

variable [Fintype T] {s : St T M S C D L E}

/-- One thread weighs no more than all of them. -/
theorem St.le_tally (g : Status M C L → ℕ) (t : T) : g (s.th t) ≤ s.tally g :=
  single_le_sum (f := fun u => g (s.th u)) (fun _ _ => Nat.zero_le _) (mem_univ t)

/-- Two threads weigh together no more than all of them.  Where the tally is at
most one, no two threads stand at places that weigh anything. -/
theorem St.add_le_tally (g : Status M C L → ℕ) {t u : T} (htu : t ≠ u) :
    g (s.th t) + g (s.th u) ≤ s.tally g := by
  classical
  have hpair : ∑ v ∈ {t, u}, g (s.th v) = g (s.th t) + g (s.th u) := sum_pair htu
  rw [← hpair]
  exact sum_le_sum_of_subset (subset_univ _)

/-- Where no thread weighs anything the tally is zero. -/
theorem St.tally_eq_zero {g : Status M C L → ℕ} (h : ∀ t, g (s.th t) = 0) : s.tally g = 0 :=
  sum_eq_zero fun t _ => h t

variable [DecidableEq T]

/-- Waking somebody raises what counts woken threads and not sleepers. -/
theorem St.tally_wake_lt {g : Status M C L → ℕ} {ws : Finset T} (hle : ∀ st, g st ≤ g st.wakeUp)
    (hlt : ∃ w ∈ ws, g (s.th w) < g (s.th w).wakeUp) : s.tally g < (s.wake ws).tally g := by
  obtain ⟨w, hw, hlt⟩ := hlt
  refine sum_lt_sum (fun u _ => ?_) ⟨w, mem_univ w, ?_⟩
  · rw [wake_th]
    split_ifs
    · exact hle _
    · exact le_rfl
  · rw [wake_th, if_pos hw]
    exact hlt

/-- The same without knowing that anybody is woken: the tally does not fall. -/
theorem St.tally_wake_le {g : Status M C L → ℕ} (ws : Finset T) (hle : ∀ st, g st ≤ g st.wakeUp) :
    s.tally g ≤ (s.wake ws).tally g := by
  refine sum_le_sum fun u _ => ?_
  rw [wake_th]
  split_ifs
  · exact hle _
  · exact le_rfl

end count

/-- Whether a thread is still to be started. -/
def Status.toCome : Status M C L → ℕ
  | .unborn => 1
  | _ => 0

/-- A thread that is woken was started before. -/
theorem Status.toCome_wakeUp (st : Status M C L) : st.wakeUp.toCome = st.toCome := by
  cases st <;> rfl

/-- **Only `pthread_create` starts a thread, and it starts one.**  In both
cases the threads still to come are counted, so that `main` is through when
none is left. -/
theorem Step.tally_toCome [Fintype T] [DecidableEq T] [DecidableEq M] [DecidableEq S]
    {P : L → Op T M S C D L I E} {s s' : St T M S C D L E} {t : T} (hs : Step P s t s') :
    (∃ l start k, s.th t = .run l ∧ P l = .create start k ∧ s'.th t = .run k ∧
      s'.tally Status.toCome + 1 = s.tally Status.toCome) ∨
    ((∀ l start k, s.th t = .run l → P l ≠ .create start k) ∧
      s'.tally Status.toCome = s.tally Status.toCome) := by
  have hother : ∀ {l}, s.th t = .run l → (∀ start k, P l ≠ .create start k) →
      ∀ l start k, s.th t = .run l → P l ≠ .create start k := by
    intro l hl hop l' start k hl'
    rw [hl] at hl'
    cases hl'
    exact hop start k
  cases hs with
  | @create l start k u hl ho hu =>
    left
    have hut : u ≠ t := by
      rintro rfl
      rw [hl] at hu
      cases hu
    have hborn := s.tally_put Status.toCome u (.run start)
    have hself : ((s.put u (.run start)).put t (.run k)).tally Status.toCome =
        (s.put u (.run start)).tally Status.toCome := by
      refine St.tally_put_eq _ _ _ _ ?_
      rw [St.put_th, update_of_ne (Ne.symm hut), hl]
      rfl
    rw [hu] at hborn
    refine ⟨l, start, k, hl, ho, by rw [St.put_th, update_self], ?_⟩
    rw [hself]
    exact hborn
  | condSignal ws hl ho hws hne | condBroadcast ws hl ho hws =>
    right
    refine ⟨hother hl (by rw [ho]; nofun), ?_⟩
    rw [St.tally_put_eq _ _ _ _ (by rw [St.wake_th_run _ _ _ hl]; rfl),
      St.tally_wake_eq _ _ _ Status.toCome_wakeUp]
  | reacquire hl hm =>
    right
    have hrun : ∀ l, s.th t ≠ .run l := by
      rw [hl]
      nofun
    refine ⟨fun l _ _ hl' => absurd hl' (hrun l), ?_⟩
    rw [St.tally_put_eq _ _ _ _ (by rw [St.setOwner_th, hl]; rfl), St.tally_setOwner]
  | lock hl ho hm | unlock hl ho hm | condWait hl ho hm =>
    right
    refine ⟨hother hl (by rw [ho]; nofun), ?_⟩
    rw [St.tally_put_eq _ _ _ _ (by rw [St.setOwner_th, hl]; rfl), St.tally_setOwner]
  | semWait hl ho hx | semPost hl ho =>
    right
    refine ⟨hother hl (by rw [ho]; nofun), ?_⟩
    rw [St.tally_put_eq _ _ _ _ (by rw [St.setSem_th, hl]; rfl), St.tally_setSem]
  | semIntr hl ho | join hl ho hu he =>
    right
    refine ⟨hother hl (by rw [ho]; nofun), ?_⟩
    exact St.tally_put_eq _ _ _ _ (by rw [hl]; rfl)
  | act hl ho hf =>
    right
    refine ⟨hother hl (by rw [ho]; nofun), ?_⟩
    rw [St.tally_put_eq _ _ _ _ (by rw [St.record_th, hl]; rfl), St.tally_record]

/-- A spurious wake-up starts no thread: who wakes up was asleep. -/
theorem Wake.tally_toCome [Fintype T] [DecidableEq T] {s s' : St T M S C D L E} {t : T}
    (hw : Wake s t s') : s'.tally Status.toCome = s.tally Status.toCome := by
  obtain ⟨hl⟩ := hw
  exact St.tally_put_eq _ _ _ _ (by rw [hl]; rfl)

/-! ### Ledgers -/

/-- The weight of a status: that of the place the thread is at or returns
to. -/
def Status.weight {A : Type*} [Zero A] (loc : L → A) : Status M C L → A
  | .unborn => 0
  | .run l => loc l
  | .waiting _ _ k | .woken _ k => loc k

/-- A delivered wake-up leaves the weight, which is that of the place. -/
theorem Status.weight_wakeUp {A : Type*} [Zero A] (loc : L → A) (st : Status M C L) :
    st.wakeUp.weight loc = st.weight loc := by
  cases st <;> rfl

/-- Counting with `ℕ` and weighing with `ℤ` agree.  Ledgers weigh with `ℤ`,
since an access may take weight away. -/
theorem St.tally_weight_cast [Fintype T] (g : L → ℕ) (s : St T M S C D L E) :
    s.tally (Status.weight fun l => (g l : ℤ)) = (s.tally (Status.weight g) : ℕ) := by
  unfold tally
  rw [Nat.cast_sum]
  refine sum_congr rfl fun t _ => ?_
  cases s.th t <;> rfl

/-- The call moves no weight: it is neither an access nor one of a
semaphore. -/
def Op.Still (o : Op T M S C D L I E) : Prop :=
  match o with
  | .semWait .. | .semPost .. | .act _ => False
  | _ => True

/-- Every call of `P` conserves the sum of the weights: `loc` of the control
points, `sem` of one permit of each semaphore, `data` of the data and `ev` of
the events. -/
structure Ledger (P : L → Op T M S C D L I E) (loc : L → ℤ) (sem : S → ℤ) (data : D → ℤ)
    (ev : E → ℤ) : Prop where
  stay : ∀ {l k}, (P l).Leads k → (P l).Still → loc k = loc l
  semWait : ∀ {l x k intr}, P l = .semWait x k intr → loc k = loc l + sem x
  semIntr : ∀ {l x k k'}, P l = .semWait x k (some k') → loc k' = loc l
  semPost : ∀ {l x k}, P l = .semPost x k → loc k + sem x = loc l
  create : ∀ {l start k}, P l = .create start k → loc start = 0
  act : ∀ {l f i d d' k evs}, P l = .act f → f i d = some (.next d' k evs) →
    loc k + data d' + (evs.map ev).sum = loc l + data d

/-- The weight of the permits in the semaphores. -/
def St.banked [Fintype S] (sem : S → ℤ) (s : St T M S C D L E) : ℤ := ∑ x, sem x * s.sem x

/-- The total weight of a state. -/
def St.balance [Fintype T] [Fintype S] (loc : L → ℤ) (sem : S → ℤ) (data : D → ℤ) (ev : E → ℤ)
    (s : St T M S C D L E) : ℤ :=
  s.tally (Status.weight loc) + s.banked sem + data s.data + (s.events.map ev).sum

section balance

variable [Fintype T] [Fintype S] [DecidableEq T] [DecidableEq M] [DecidableEq S]
variable {P : L → Op T M S C D L I E} {loc : L → ℤ} {sem : S → ℤ} {data : D → ℤ} {ev : E → ℤ}
variable {s s' : St T M S C D L E} {t : T}

omit [Fintype T] [DecidableEq T] [DecidableEq M] in
/-- A semaphore changes value: the permits' weight changes by the difference
there. -/
theorem St.banked_setSem (sem : S → ℤ) (s : St T M S C D L E) (x : S) (v : ℕ) :
    (s.setSem x v).banked sem + sem x * s.sem x = s.banked sem + sem x * v :=
  sum_update_add (fun y (n : ℕ) => sem y * (n : ℤ)) s.sem x v

omit [Fintype S] [DecidableEq M] [DecidableEq S] in
/-- A thread goes on from `l`: the threads' weight changes by the difference of
the two places, whether it then runs or sleeps. -/
theorem St.weight_put (loc : L → ℤ) (s : St T M S C D L E) {l : L} (hl : s.th t = .run l)
    (st : Status M C L) :
    (s.put t st).tally (Status.weight loc) + loc l =
      s.tally (Status.weight loc) + st.weight loc := by
  have h := s.tally_put (Status.weight loc) t st
  rwa [hl] at h

omit [DecidableEq M] [DecidableEq S] in
/-- A call that conserves the weight of its thread conserves the balance, as it
touches neither permits nor data. -/
theorem St.balance_put (s : St T M S C D L E) {l k : L} (hl : s.th t = .run l)
    {st : Status M C L} (hk : st.weight loc = loc k) (hst : loc k = loc l) :
    (s.put t st).balance loc sem data ev = s.balance loc sem data ev := by
  unfold balance
  rw [s.tally_put_eq (Status.weight loc) t st (by rw [hl, hk, hst]; rfl)]
  rfl

/-- **A step moves weight and makes none.**  By cases on the call: a permit
moves between a semaphore and a thread, an access between thread, data and
events, and any other call moves nothing. -/
theorem Ledger.step (H : Ledger P loc sem data ev) (hs : Step P s t s') :
    s'.balance loc sem data ev = s.balance loc sem data ev := by
  have hwake : ∀ ws, (s.wake ws).balance loc sem data ev = s.balance loc sem data ev := fun ws => by
    unfold St.balance
    rw [St.tally_wake_eq _ _ _ (Status.weight_wakeUp loc)]
    rfl
  cases hs with
  | @lock l m k hl ho hm =>
    exact (s.setOwner m (some t)).balance_put hl rfl
      (H.stay (by rw [ho]; rfl) (by rw [ho]; trivial))
  | @unlock l m k hl ho hm =>
    exact (s.setOwner m none).balance_put hl rfl
      (H.stay (by rw [ho]; rfl) (by rw [ho]; trivial))
  | @condWait l c m k hl ho hm =>
    exact (s.setOwner m none).balance_put hl rfl
      (H.stay (by rw [ho]; rfl) (by rw [ho]; trivial))
  | @reacquire m k hl hm =>
    unfold St.balance
    rw [St.tally_put_eq _ _ _ _ (by rw [St.setOwner_th, hl]; rfl)]
    rfl
  | condSignal ws hl ho hws hne =>
    rw [St.balance_put _ (St.wake_th_run _ _ _ hl) rfl
      (H.stay (by rw [ho]; rfl) (by rw [ho]; trivial)), hwake]
  | condBroadcast ws hl ho hws =>
    rw [St.balance_put _ (St.wake_th_run _ _ _ hl) rfl
      (H.stay (by rw [ho]; rfl) (by rw [ho]; trivial)), hwake]
  | @semWait l x k intr v hl ho hx =>
    have hloc := H.semWait ho
    have hth := St.weight_put loc (s.setSem x v) hl (.run k)
    have hsem := s.banked_setSem sem x v
    rw [hx, Nat.cast_succ, mul_add, mul_one] at hsem
    simp only [St.tally_setSem, Status.weight] at hth
    simp only [St.balance, St.put_data, St.setSem_data, St.put_events, St.setSem_events]
    change _ + (s.setSem x v).banked sem + _ + _ = _
    omega
  | semIntr hl ho => exact s.balance_put hl rfl (H.semIntr ho)
  | @semPost l x k hl ho =>
    have hloc := H.semPost ho
    have hth := St.weight_put loc (s.setSem x (s.sem x + 1)) hl (.run k)
    have hsem := s.banked_setSem sem x (s.sem x + 1)
    rw [Nat.cast_succ, mul_add, mul_one] at hsem
    simp only [St.tally_setSem, Status.weight] at hth
    simp only [St.balance, St.put_data, St.setSem_data, St.put_events, St.setSem_events]
    change _ + (s.setSem x (s.sem x + 1)).banked sem + _ + _ = _
    omega
  | @create l start k u hl ho hu =>
    have hut : t ≠ u := fun e => by
      rw [← e, hl] at hu
      cases hu
    have hborn : (s.put u (.run start)).balance loc sem data ev = s.balance loc sem data ev := by
      unfold St.balance
      rw [St.tally_put_eq _ _ _ _ (by rw [hu]; exact H.create ho)]
      rfl
    rw [St.balance_put _ (by simpa [hut] using hl) rfl
      (H.stay (by rw [ho]; rfl) (by rw [ho]; trivial)), hborn]
  | join hl ho hu he =>
    exact s.balance_put hl rfl (H.stay (by rw [ho]; rfl) (by rw [ho]; trivial))
  | @act l f i d k evs hl ho hf =>
    have hloc := H.act ho hf
    have hth := St.weight_put loc (s.record t d evs) hl (.run k)
    simp only [St.tally_record, Status.weight] at hth
    simp only [St.balance, St.put_data, St.record_data, St.put_events, St.record_events,
      List.map_append, List.sum_append]
    change _ + s.banked sem + _ + _ = _
    omega

/-- **The balance is that of the start state.**  From it bounds are read off,
such as that no more permits are out than there are slots. -/
theorem Ledger.balance (H : Ledger P loc sem data ev) {init : St T M S C D L E → Prop} {b : ℤ}
    (hinit : ∀ s, init s → s.balance loc sem data ev = b) (hs : (system P init).Reachable s) :
    s.balance loc sem data ev = b := by
  refine hs.invariant hinit ?_
  rintro s s' - h ⟨t, hst | hw⟩
  · rw [H.step hst, h]
  · obtain ⟨hl⟩ := hw
    rw [← h]
    unfold St.balance
    rw [St.tally_put_eq _ _ _ _ (by rw [hl]; rfl)]
    rfl

end balance

end Pthread
end OSNetWorkCode
