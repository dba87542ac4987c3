/-
# Where the permits of `RingQueue` are

Every permit of the two semaphores is in a semaphore, with a thread between its
`p` and its `v`, or stands for a value in the ring.  `ledger` checks this
call by call; `space_permits` and `data_permits` are the two balance
sheets of a reachable state:

* free slots: the permits of `__space_sem`, the producers that have one and have not
  stored, and the consumers that have loaded and not posted it back;
* unread values: the permits of `__data_sem`, the producers that have stored and not
  posted, and the consumers that have a permit and have not loaded.

So a producer about to store finds fewer than `n` unread values
(`unread_lt_of_pushStore`) and a consumer about to load finds one
(`unread_pos_of_popLoad`), whatever the other threads are doing.
-/

import Mathlib.Tactic.Tauto
import OSNetWorkCode.Pthread.Ledger
import OSNetWorkCode.Pthread.Monitor
import OSNetWorkCode.RingQueue.Model

namespace OSNetWorkCode
namespace RingQueue

open Pthread

variable {T α : Type*}

/-- The lock owned at each place. -/
def holds : Pc α → Mutex → Prop
  | .pushStore .., m | .pushMod .., m | .pushUnlock .., m => m = .pLock
  | .popLoad .., m | .popMod .., m | .popUnlock .., m => m = .cLock
  | _, _ => False

/-- The accesses where copies do not throw, by the place they are made at: what
they leave, where they go on and what they record. -/
inductive Access (d : Data α) : Pc α → Data α → Pc α → List (Event α) → Prop
  | store {v todo} (hlt : d.pStep < d.ringQueue.length) : Access d (.pushStore v todo)
      { d with ringQueue := d.ringQueue.set d.pStep v, pStep := d.pStep + 1 } (.pushMod todo)
      [.stored v]
  | modP {todo} (hsize : d.size ≠ 0) :
      Access d (.pushMod todo) { d with pStep := d.pStep % d.size } (.pushUnlock todo) []
  | load {v todo} (hv : d.ringQueue[d.cStep]? = some v) :
      Access d (.popLoad todo) { d with cStep := d.cStep + 1 } (.popMod todo) [.delivered v]
  | modC {todo} (hsize : d.size ≠ 0) :
      Access d (.popMod todo) { d with cStep := d.cStep % d.size } (.popUnlock todo) []

/-- The accesses under `e`: those, and the assignments that throw. -/
inductive Effect (e : Env) (d : Data α) : Pc α → Data α → Pc α → List (Event α) → Prop
  | done {l d' k ev} (h : Access d l d' k ev) : Effect e d l d' k ev
  | storeThrows {v todo} (hthrows : e.throws = true) : Effect e d (.pushStore v todo)
      { d with pStep := d.pStep + 1 } (.ready todo) [.thrown]
  | loadThrows {todo} (hthrows : e.throws = true) : Effect e d (.popLoad todo)
      { d with cStep := d.cStep + 1 } (.ready todo) [.thrown]

/-- **Every access is one of these,** under any environment.  Where an
assignment throws, the cursor has been moved, and the thread leaves the call
with the permit and the lock it has taken. -/
theorem effect {e : Env} {l k : Pc α} {f i} {d d' : Data α} {ev}
    (h : prog (T := T) e l = .act f) (hf : f i d = some (.next d' k ev)) : Effect e d l d' k ev := by
  cases l with
  | pushStore v todo =>
    cases h
    unfold RingQueue.store at hf
    split_ifs at hf with hlt _ hthrows
    · cases hf
      exact .storeThrows hthrows
    · cases hf
      exact .done (.store hlt)
    · cases hf
  | pushMod todo =>
    cases h
    unfold RingQueue.modP at hf
    split_ifs at hf with hsize
    · cases hf
    · cases hf
      exact .done (.modP hsize)
  | popLoad todo =>
    cases h
    unfold RingQueue.load at hf
    split at hf
    · rename_i v hv
      split_ifs at hf with _ hthrows
      · cases hf
        exact .loadThrows hthrows
      · cases hf
        exact .done (.load hv)
    · cases hf
  | popMod todo =>
    cases h
    unfold RingQueue.modC at hf
    split_ifs at hf with hsize
    · cases hf
    · cases hf
      exact .done (.modC hsize)
  | _ => cases h

/-- Where copies do not throw, it is one of the first: the effects of throwing
do not occur. -/
theorem access {e : Env} (he : e.throws = false) {l k : Pc α} {f i} {d d' : Data α} {ev}
    (h : prog (T := T) e l = .act f) (hf : f i d = some (.next d' k ev)) :
    Access d l d' k ev := by
  cases effect h hf with
  | done h => exact h
  | storeThrows hthrows | loadThrows hthrows =>
    rw [he] at hthrows
    cases hthrows

/-- `Sem::p` returns to one place, interrupted or not: the caller cannot
tell. -/
theorem Sem.p_leads {e : Env} {x : Sem} {k k' : Pc α} (h : (Sem.p (T := T) e x k').Leads k) :
    k = k' := by
  rcases h with h | h
  · exact h
  · split_ifs at h
    exact (Option.some.inj h).symm

/-- **`push` and `pop` agree with the annotation**: each takes its lock, uses
it and gives it back.  Interrupts do not matter for this, since the locks come
after the wait. -/
theorem locks {e : Env} (he : e.throws = false) : Locks (prog (T := T) (α := α) e) holds where
  lock {l m k} h := by
    cases l <;> cases h <;> exact id
  unlock {l m k} h := by
    cases l <;> cases h <;> rfl
  condWait {l c} h := c.elim
  create {l start k} h := by
    cases l <;> cases h
  leads {l k} h m := by
    by_cases hact : ∃ f, prog (T := T) e l = .act f
    · obtain ⟨f, hop⟩ := hact
      rw [hop] at h ⊢
      obtain ⟨i, d, d', ev, hf⟩ := h
      cases access he hop hf <;> rfl
    · cases l with
      | done => cases h
      | callPush v todo | callPop todo =>
        rw [Sem.p_leads h]
        rfl
      | pushStore v todo | pushMod todo | popLoad todo | popMod todo => exact absurd ⟨_, rfl⟩ hact
      | _ =>
        cases h
        simp [holds, prog, Sem.v, Op.held]

/-- At first nobody owns a lock, and nobody is inside. -/
theorem owned_of_init [Inhabited α] {e : Env} {n : ℕ} {s : State T α} (h : Init n s) :
    Owned (prog e) holds s where
  owner m t := by
    obtain ⟨todo, ht⟩ := h.th t
    simp [h.owner, ht, Status.Holds, holds]
  entered t := by
    obtain ⟨todo, ht⟩ := h.th t
    rw [ht]
    trivial

/-- **Two threads between lock and unlock of the same lock are one thread.**
It holds under interrupts too, and fails only where copies throw. -/
theorem owned [DecidableEq T] [Inhabited α] {e : Env} (he : e.throws = false) {n : ℕ}
    {s : State T α} (hs : (sys e n).Reachable s) : Owned (prog e) holds s :=
  (locks he).owned (fun _ h => owned_of_init h) hs

/-! ### The ledgers of the two semaphores -/

/-- Permits of `x` a thread has taken and not used, or slots it has filled or
emptied and not posted to `x` yet. -/
def held : Sem → Pc α → ℕ
  | .spaceSem, .pushLock .. | .spaceSem, .pushStore .. => 1
  | .spaceSem, .popMod .. | .spaceSem, .popUnlock .. | .spaceSem, .popPost .. => 1
  | .dataSem, .popLock .. | .dataSem, .popLoad .. => 1
  | .dataSem, .pushMod .. | .dataSem, .pushUnlock .. | .dataSem, .pushPost .. => 1
  | _, _ => 0

/-- The free slots an event uses up, or the unread values it removes. -/
def cost : Sem → Event α → ℤ
  | .spaceSem, .stored _ | .dataSem, .delivered _ => 1
  | .spaceSem, .delivered _ | .dataSem, .stored _ => -1
  | _, .thrown => 0

/-- The events have used up as many slots as values were stored more than
delivered, and so the other way round. -/
theorem sum_cost (x : Sem) (ev : List (Event α)) :
    (ev.map (cost x)).sum =
      match x with
      | .spaceSem => ((stored ev).length : ℤ) - (delivered ev).length
      | .dataSem => ((delivered ev).length : ℤ) - (stored ev).length := by
  induction ev with
  | nil => cases x <;> rfl
  | cons e ev ih =>
    rw [List.map_cons, List.sum_cons, ih]
    cases x <;> cases e <;> simp [stored, delivered, cost] <;> omega

/-- **Each call conserves the permits of each semaphore.**  A permit taken is
with the thread until its store or load, and then stands for the slot or the
value until it is posted. -/
theorem ledger (x : Sem) : Ledger (prog (T := T) (α := α) Env.calm) (fun l => (held x l : ℤ))
    (fun y => if y = x then 1 else 0) (fun _ => 0) (cost x) where
  stay {l k} hk hs := by
    cases l with
    | pushLock v todo | pushUnlock todo | popLock todo | popUnlock todo =>
      cases hk
      cases x <;> rfl
    | done => exact hk.elim
    | _ => exact hs.elim
  semWait {l y k intr} h := by
    cases l with
    | callPush v todo | callPop todo =>
      cases h
      cases x <;> rfl
    | _ => cases h
  semIntr {l y k k'} h := by cases l <;> cases h
  semPost {l y k} h := by
    cases l with
    | pushPost todo | popPost todo =>
      cases h
      cases x <;> rfl
    | _ => cases h
  create {l start k} h := by cases l <;> cases h
  act {l f i d d' k evs} h hf := by
    cases access rfl h hf <;> cases x <;> rfl

section permits

variable [Fintype T] [DecidableEq T] [Inhabited α] {n : ℕ} {s : State T α}

omit [DecidableEq T] [Inhabited α] in
/-- The balance of a semaphore, written out: what is held, what is in the
semaphore and what the events have used. -/
theorem balance_eq (x : Sem) :
    s.balance (fun l => (held x l : ℤ)) (fun y => if y = x then 1 else 0) (fun _ => 0) (cost x) =
      (s.tally (Status.weight (held x)) : ℕ) + s.sem x + (s.events.map (cost x)).sum := by
  simp [St.balance, St.banked, St.tally_weight_cast]

/-- The permits of a semaphore add up to its first value, in every reachable
state. -/
theorem permits (hs : (sys Env.calm n).Reachable s) (x : Sem) :
    (s.tally (Status.weight (held x)) : ℕ) + s.sem x + (s.events.map (cost x)).sum =
      (x.value n : ℤ) := by
  rw [← balance_eq]
  refine (ledger x).balance (fun s h => ?_) hs
  have htally : s.tally (Status.weight (held x)) = 0 := St.tally_eq_zero fun t => by
    obtain ⟨todo, ht⟩ := h.th t
    rw [ht]
    cases x <;> rfl
  rw [balance_eq, htally, h.sem, St.events, h.log]
  simp

/-- **Free slots:** in the semaphore, with producers before their store, with
consumers after their load. -/
theorem space_permits (hs : (sys Env.calm n).Reachable s) :
    s.tally (Status.weight (held .spaceSem)) + s.sem .spaceSem + (stored s.events).length =
      n + (delivered s.events).length := by
  have h := permits hs .spaceSem
  rw [sum_cost] at h
  simp only [Sem.value] at h
  omega

/-- **Unread values:** in the semaphore, with producers after their store, with
consumers before their load. -/
theorem data_permits (hs : (sys Env.calm n).Reachable s) :
    s.tally (Status.weight (held .dataSem)) + s.sem .dataSem + (delivered s.events).length =
      (stored s.events).length := by
  have h := permits hs .dataSem
  rw [sum_cost] at h
  simp only [Sem.value] at h
  omega

/-- Never more than `n` values are unread, since none of the parts of the
balance is negative. -/
theorem unread_le (hs : (sys Env.calm n).Reachable s) :
    (stored s.events).length ≤ n + (delivered s.events).length := by
  have := space_permits hs
  omega

/-- No value is delivered that was not stored. -/
theorem delivered_le (hs : (sys Env.calm n).Reachable s) :
    (delivered s.events).length ≤ (stored s.events).length := by
  have := data_permits hs
  omega

/-- **A producer about to store finds a free slot:** the permit it holds is one
of the free slots in the balance, whoever else is under way. -/
theorem unread_lt_of_pushStore (hs : (sys Env.calm n).Reachable s) {t : T} {v : α} {todo}
    (ht : s.th t = .run (.pushStore v todo)) :
    (stored s.events).length < n + (delivered s.events).length := by
  have h1 := space_permits hs
  have h2 := s.le_tally (Status.weight (held .spaceSem)) t
  rw [ht] at h2
  simp only [Status.weight, held] at h2
  omega

/-- **A consumer about to load finds an unread value,** for which the permit it
holds stands. -/
theorem unread_pos_of_popLoad (hs : (sys Env.calm n).Reachable s) {t : T} {todo}
    (ht : s.th t = .run (.popLoad todo)) :
    (delivered s.events).length < (stored s.events).length := by
  have h1 := data_permits hs
  have h2 := s.le_tally (Status.weight (held .dataSem)) t
  rw [ht] at h2
  simp only [Status.weight, held] at h2
  omega

end permits

end RingQueue
end OSNetWorkCode
