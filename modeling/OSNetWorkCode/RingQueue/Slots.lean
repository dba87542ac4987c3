/-
# A producer and a consumer never touch the same slot of `RingQueue`

Producers share `__p_lock` and consumers `__c_lock`, so a store and a load may
happen at the same time and only the semaphores keep them apart.  While a
producer is inside its critical section and a consumer inside its own, the
value stored there is the `i`-th and the value loaded there the `j`-th for some
`j < i < j + n` (`between_critical`): the consumer's data permit stands for a
value stored and posted before, the producer's space permit for a slot emptied
and posted before.  Positions less than `n` apart are different slots.

`permits_sum` adds up the two balance sheets of `Permits`: every permit of the
`n` is in a semaphore, or with a `push` or `pop` between its `p` and its `v`.
-/

import OSNetWorkCode.Pthread.Schedule
import OSNetWorkCode.RingQueue.Refinement

namespace OSNetWorkCode
namespace RingQueue

open Pthread

variable {T α : Type*}

/-- A `push` that holds a permit of `__space_sem` and has not posted
`__data_sem`. -/
def pushing : Pc α → ℕ
  | .pushLock .. | .pushStore .. | .pushMod .. | .pushUnlock .. | .pushPost .. => 1
  | _ => 0

/-- A `pop` that holds a permit of `__data_sem` and has not posted
`__space_sem`. -/
def popping : Pc α → ℕ
  | .popLock .. | .popLoad .. | .popMod .. | .popUnlock .. | .popPost .. => 1
  | _ => 0

/-- The slot a producer inside its critical section stores to, or has stored to
there: `__p_step` before the increment. -/
def storeSlot (d : Data α) : Pc α → Option ℕ
  | .pushStore .. => some d.pStep
  | .pushMod _ => some (d.pStep - 1)
  | .pushUnlock _ => some ((d.pStep + d.size - 1) % d.size)
  | _ => none

/-- The slot a consumer inside its critical section loads from, or has loaded
from there. -/
def loadSlot (d : Data α) : Pc α → Option ℕ
  | .popLoad _ => some d.cStep
  | .popMod _ => some (d.cStep - 1)
  | .popUnlock _ => some ((d.cStep + d.size - 1) % d.size)
  | _ => none

/-- The greatest `int`. -/
def intMax : ℕ := 2147483647

section reachable

variable [Fintype T] [DecidableEq T] [Inhabited α] {n : ℕ} {s : State T α}

omit [DecidableEq T] [Inhabited α] in
/-- A permit taken and not passed on is one of the two kinds of `held`: before
the store or load it is a permit of the semaphore it was taken from, behind it
one of the other. -/
theorem tally_held (s : State T α) :
    s.tally (Status.weight (held .spaceSem)) + s.tally (Status.weight (held .dataSem)) =
      s.tally (Status.weight pushing) + s.tally (Status.weight popping) := by
  have hplace : ∀ l : Pc α, held .spaceSem l + held .dataSem l = pushing l + popping l := by
    intro l
    cases l <;> rfl
  unfold St.tally
  rw [← Finset.sum_add_distrib, ← Finset.sum_add_distrib]
  refine Finset.sum_congr rfl fun t _ => ?_
  cases s.th t with
  | unborn => rfl
  | run l | waiting c m l | woken m l => exact hplace l

/-- **The permits of both semaphores and of the calls under way are `n`
together.**  It is the sum of the two balance sheets, in which the numbers of
values cancel. -/
theorem permits_sum (hs : (sys Env.calm n).Reachable s) :
    s.sem .spaceSem + s.sem .dataSem + s.tally (Status.weight pushing) +
      s.tally (Status.weight popping) = n := by
  have hspace := space_permits hs
  have hdata := data_permits hs
  have htally := tally_held s
  omega

/-- The slot that a cursor points to before it has moved is that of the next
value. -/
theorem Cursor.slot {step count : ℕ} (h : Cursor n false step count) :
    ∃ k, step = k % n ∧ k = count + n :=
  ⟨_, h.trans (Nat.add_mod_right _ n).symm, rfl⟩

/-- Between the increment and the remainder the slot is the one before: the
increment is part of the subscript. -/
theorem Cursor.slot_moved {step count : ℕ} (h : Cursor n true step count) :
    ∃ k, step - 1 = k % n ∧ k + 1 = count + n := by
  obtain ⟨c, rfl, rfl⟩ := h
  refine ⟨c + n, ?_, Nat.add_right_comm c n 1⟩
  rw [Nat.add_sub_cancel, Nat.add_mod_right]

/-- After the remainder it is the one before, round the end. -/
theorem Cursor.slot_reduced (hn : 1 ≤ n) {step count : ℕ} (h : Cursor n false step count) :
    ∃ k, (step + n - 1) % n = k % n ∧ k + 1 = count + n := by
  refine ⟨count + (n - 1), ?_, by rw [Nat.add_assoc, Nat.sub_add_cancel hn]⟩
  rw [show step = count % n from h, Nat.add_sub_assoc hn, Nat.mod_add_mod]

omit [Fintype T] in
/-- **The slot of a producer inside its critical section** is that of the value
stored there: the next one before the store, the last one after it.  Numbers of
values are shifted by one round. -/
theorem storeSlot_eq (hn : 1 ≤ n) (hs : (sys Env.calm n).Reachable s) {t : T} {l : Pc α}
    (ht : s.th t = .run l) {i : ℕ} (hi : storeSlot s.data l = some i) :
    ∃ k, i = k % n ∧ k + held .dataSem l = (stored s.events).length + n := by
  have hin : holds l .pLock → Shape n s.data ∧
      Cursor n (pMoved l) s.data.pStep (stored s.events).length := (pGuarded hs).inside ht
  cases l with
  | pushStore v todo =>
    obtain ⟨-, hcursor⟩ := hin rfl
    obtain rfl := Option.some.inj hi
    exact hcursor.slot
  | pushMod todo =>
    obtain ⟨-, hcursor⟩ := hin rfl
    obtain rfl := Option.some.inj hi
    exact hcursor.slot_moved
  | pushUnlock todo =>
    obtain ⟨hshape, hcursor⟩ := hin rfl
    obtain rfl := Option.some.inj hi
    rw [hshape.1]
    exact hcursor.slot_reduced hn
  | _ => cases hi

omit [Fintype T] in
/-- **The slot of a consumer inside its critical section** is that of the value
loaded there, in the same way. -/
theorem loadSlot_eq (hn : 1 ≤ n) (hs : (sys Env.calm n).Reachable s) {t : T} {l : Pc α}
    (ht : s.th t = .run l) {j : ℕ} (hj : loadSlot s.data l = some j) :
    ∃ k, j = k % n ∧ k + held .spaceSem l = (delivered s.events).length + n := by
  have hin : holds l .cLock → Shape n s.data ∧
      Cursor n (cMoved l) s.data.cStep (delivered s.events).length := (cGuarded hs).inside ht
  cases l with
  | popLoad todo =>
    obtain ⟨-, hcursor⟩ := hin rfl
    obtain rfl := Option.some.inj hj
    exact hcursor.slot
  | popMod todo =>
    obtain ⟨-, hcursor⟩ := hin rfl
    obtain rfl := Option.some.inj hj
    exact hcursor.slot_moved
  | popUnlock todo =>
    obtain ⟨hshape, hcursor⟩ := hin rfl
    obtain rfl := Option.some.inj hj
    rw [hshape.1]
    exact hcursor.slot_reduced hn
  | _ => cases hj

/-- **A producer and a consumer inside their critical sections use different
slots.**  Each of the two counts in the balance of the other's permits, so that
the value stored is less than `n` ahead of the one loaded. -/
theorem storeSlot_ne_loadSlot (hn : 1 ≤ n) (hs : (sys Env.calm n).Reachable s) {t u : T}
    {l l' : Pc α} (ht : s.th t = .run l) (hu : s.th u = .run l') {i j : ℕ}
    (hi : storeSlot s.data l = some i) (hj : loadSlot s.data l' = some j) : i ≠ j := by
  obtain ⟨k, rfl, hk⟩ := storeSlot_eq hn hs ht hi
  obtain ⟨k', rfl, hk'⟩ := loadSlot_eq hn hs hu hj
  have htu : t ≠ u := by
    rintro rfl
    rw [ht] at hu
    cases hu
    cases l <;> first | cases hi | cases hj
  have hone : held .spaceSem l + held .dataSem l = 1 := by
    cases l <;> first | rfl | cases hi
  have hone' : held .spaceSem l' + held .dataSem l' = 1 := by
    cases l' <;> first | rfl | cases hj
  -- the consumer's permit is for a value posted before, the producer's for a slot posted before
  have hdata := s.add_le_tally (Status.weight (held .dataSem)) htu
  have hspace := s.add_le_tally (Status.weight (held .spaceSem)) htu
  rw [ht, hu] at hdata hspace
  simp only [Status.weight] at hdata hspace
  have hbooks := data_permits hs
  have hbooks' := space_permits hs
  exact (mod_ne_of_lt (by omega : k' < k) (by omega)).symm

omit [Fintype T] in
/-- **Neither cursor exceeds `__size`,** not even before it is reduced.  So
both fit an `int` wherever the capacity does. -/
theorem cursors_le (hn : 1 ≤ n) (hs : (sys Env.calm n).Reachable s) :
    Shape n s.data ∧ s.data.pStep ≤ n ∧ s.data.cStep ≤ n := by
  refine data_invariant (J := fun d _ => Shape n d ∧ d.pStep ≤ n ∧ d.cStep ≤ n)
    (R := fun _ => True) (fun _ _ => trivial) (fun s h => ?_) ?_ hs
  · rw [h.data]
    exact ⟨⟨rfl, List.length_replicate⟩, Nat.zero_le n, Nat.zero_le n⟩
  · rintro s t l f i d k e - ht hf hnext ⟨hshape, hp, hc⟩
    cases access rfl hf hnext with
    | store hlt =>
      rw [hshape.2] at hlt
      exact ⟨⟨hshape.1, by rw [List.length_set, hshape.2]⟩, hlt, hc⟩
    | modP => exact ⟨hshape, by rw [hshape.1]; exact (Nat.mod_lt _ hn).le, hc⟩
    | load hv =>
      obtain ⟨hlt, -⟩ := List.getElem?_eq_some_iff.1 hv
      rw [hshape.2] at hlt
      exact ⟨hshape, hp, hlt⟩
    | modC => exact ⟨hshape, hp, by rw [hshape.1]; exact (Nat.mod_lt _ hn).le⟩

/-- What keeps unlocked accesses to the ring apart. -/
structure SlotSafe (n : ℕ) (s : State T α) : Prop where
  permits : s.sem .spaceSem + s.sem .dataSem + s.tally (Status.weight pushing) +
    s.tally (Status.weight popping) = n
  /-- One producer at a time holds `__p_lock`, one consumer at a time `__c_lock`. -/
  alone : ∀ m t u l l', s.th t = .run l → s.th u = .run l' → holds l m → holds l' m → t = u
  apart : ∀ t u l l' i j, s.th t = .run l → s.th u = .run l' → storeSlot s.data l = some i →
    loadSlot s.data l' = some j → i ≠ j
  /-- `__ring_queue[__p_step++]`. -/
  store : ∀ t v todo, s.th t = .run (.pushStore v todo) →
    s.data.pStep < s.data.size ∧ s.data.pStep < s.data.ringQueue.length
  /-- `__ring_queue[__c_step++]`. -/
  load : ∀ t todo, s.th t = .run (.popLoad todo) →
    s.data.cStep < s.data.size ∧ s.data.cStep < s.data.ringQueue.length
  size : s.data.size = n ∧ s.data.size ≠ 0
  cursors : s.data.pStep ≤ n ∧ s.data.cStep ≤ n
  /-- The cursors and `__size` are of type `int`, as is the capacity. -/
  int : n ≤ intMax → s.data.pStep ≤ intMax ∧ s.data.cStep ≤ intMax
  defined : ¬ Faulty (prog Env.calm) s

/-- **A producer and a consumer never touch the same slot at the same time.**
For every capacity, any number of threads and any interleaving: the permits of
the semaphores and of the calls under way add up to `n`, the critical sections
of each side exclude each other, the slots in use inside two of different sides
differ, and subscripts, remainder and cursors stay within their bounds. -/
theorem slots_apart (hn : 1 ≤ n) (hs : (sys Env.calm n).Reachable s) : SlotSafe n s := by
  obtain ⟨hshape, hp, hc⟩ := cursors_le hn hs
  have hown := owned rfl hs
  constructor
  · exact permits_sum hs
  · intro m t u l l' ht hu hl hl'
    exact hown.exclusive (m := m) (by rw [ht]; exact hl) (by rw [hu]; exact hl')
  · intro t u l l' i j ht hu hi hj
    exact storeSlot_ne_loadSlot hn hs ht hu hi hj
  · intro t v todo ht
    obtain ⟨k, hk, -⟩ := storeSlot_eq hn hs ht rfl
    have hlt : s.data.pStep < n := by
      rw [hk]
      exact Nat.mod_lt _ hn
    rw [hshape.1, hshape.2]
    exact ⟨hlt, hlt⟩
  · intro t todo ht
    obtain ⟨k, hk, -⟩ := loadSlot_eq hn hs ht rfl
    have hlt : s.data.cStep < n := by
      rw [hk]
      exact Nat.mod_lt _ hn
    rw [hshape.1, hshape.2]
    exact ⟨hlt, hlt⟩
  · rw [hshape.1]
    exact ⟨rfl, Nat.one_le_iff_ne_zero.1 hn⟩
  · exact ⟨hp, hc⟩
  · intro hint
    exact ⟨hp.trans hint, hc.trans hint⟩
  · exact not_faulty hn hs

end reachable

/-- One producer has stored `7` in a ring of two slots and is about to unlock;
the other thread has nothing to do. -/
theorem slots_apart_two : ∃ s : State (Fin 2) ℕ, (∃ todo, s.th 0 = .run (.pushUnlock todo)) ∧
    s.data.pStep = 1 ∧ SlotSafe 2 s := by
  let s₀ : State (Fin 2) ℕ :=
    ⟨fun _ => none, Sem.value 2, fun t => .run (.ready (if t = caller then [.push 7] else [])),
      .new 2, []⟩
  have hinit : (sys Env.calm 2).Reachable s₀ := .init ⟨fun _ => rfl, fun _ => rfl,
    fun t => ⟨_, rfl⟩, rfl, rfl⟩
  obtain ⟨s, hs, hth, hstep⟩ : ∃ s, replay (prog Env.calm) s₀ [(caller, .go), (caller, .go),
      (caller, .input false), (caller, .input false)] = some s ∧
      (∃ todo, s.th 0 = .run (.pushUnlock todo)) ∧ s.data.pStep = 1 :=
    ⟨_, rfl, ⟨_, rfl⟩, rfl⟩
  exact ⟨s, hth, hstep, slots_apart (by decide) (replay_reachable _ hinit hs)⟩

end RingQueue
end OSNetWorkCode
