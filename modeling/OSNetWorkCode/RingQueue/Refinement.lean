/-
# `RingQueue` is a bounded FIFO queue

The two cursors are guarded by the two locks (`pMonitor`, `cMonitor`): outside
the critical sections `__p_step` is the number of stored values modulo
`__size`, and `__c_step` that of delivered values; between the increment and
the reduction a cursor may be `__size` itself.  So no subscript is out of range
and the reduction is never by zero (`not_faulty`).

`Content` is the invariant of the slots: the unread values lie in the ring in
order, from the consumers' cursor on.  A store fills the slot after the last of
them, which is not one of them because fewer than `n` are unread then
(`unread_lt_of_pushStore`); a load takes the first, which exists
(`unread_pos_of_popLoad`).  `refines_queue` is the result: seen from the values
stored, delivered and lying in the ring, every step of `RingQueue` is a step of
a queue bounded by `n`, or none.
-/

import Mathlib.Data.Int.ModEq
import OSNetWorkCode.Lib.Fifo
import OSNetWorkCode.RingQueue.Permits

namespace OSNetWorkCode
namespace RingQueue

open Pthread

variable {T α : Type*}

/-! The values that events tell of: of a history that grows, and of single
events. -/

@[simp] theorem stored_append (a b : List (Event α)) : stored (a ++ b) = stored a ++ stored b :=
  List.filterMap_append ..

@[simp] theorem delivered_append (a b : List (Event α)) :
    delivered (a ++ b) = delivered a ++ delivered b :=
  List.filterMap_append ..

@[simp] theorem stored_nil : stored ([] : List (Event α)) = [] := rfl
@[simp] theorem delivered_nil : delivered ([] : List (Event α)) = [] := rfl
@[simp] theorem stored_stored (v : α) : stored [.stored v] = [v] := rfl
@[simp] theorem stored_delivered (v : α) : stored [.delivered v] = [] := rfl
@[simp] theorem delivered_stored (v : α) : delivered [.stored v] = [] := rfl
@[simp] theorem delivered_delivered (v : α) : delivered [.delivered v] = [v] := rfl

/-! ### The cursors -/

/-- A cursor after `count` moves on a ring of `n` slots: reduced, or, after the
last increment, not yet. -/
def Cursor (n : ℕ) (moved : Bool) (pos count : ℕ) : Prop :=
  if moved then ∃ c, count = c + 1 ∧ pos = c % n + 1 else pos = count % n

/-- A cursor moves on by one with its value, and stands on `__size` where it
has come round. -/
theorem Cursor.move {n pos count : ℕ} (h : Cursor n false pos count) :
    Cursor n true (pos + 1) (count + 1) :=
  ⟨count, rfl, by rw [show pos = count % n from h]⟩

/-- The remainder brings it back into the ring, and leaves the number of
moves. -/
theorem Cursor.reduce {n pos count : ℕ} (h : Cursor n true pos count) :
    Cursor n false (pos % n) count := by
  obtain ⟨c, rfl, rfl⟩ := h
  exact Nat.mod_add_mod c n 1

/-- The vector has as many elements as `__size` says. -/
def Shape (n : ℕ) (d : Data α) : Prop := d.size = n ∧ d.ringQueue.length = n

/-- Between `__p_step++` and `__p_step %= __size`. -/
def pMoved : Pc α → Bool
  | .pushMod _ => true
  | _ => false

/-- Between `__c_step++` and `__c_step %= __size`. -/
def cMoved : Pc α → Bool
  | .popMod _ => true
  | _ => false

/-- The places inside the critical section of `push`. -/
theorem holds_pLock {l : Pc α} (h : holds l .pLock) :
    (∃ v todo, l = .pushStore v todo) ∨ (∃ todo, l = .pushMod todo) ∨
      ∃ todo, l = .pushUnlock todo := by
  cases l <;> simp [holds] at h ⊢

/-- The places inside the critical section of `pop`. -/
theorem holds_cLock {l : Pc α} (h : holds l .cLock) :
    (∃ todo, l = .popLoad todo) ∨ (∃ todo, l = .popMod todo) ∨ ∃ todo, l = .popUnlock todo := by
  cases l <;> simp [holds] at h ⊢

/-- The accesses of a thread outside the critical section of `push`.  They
leave `__p_step` and the vector, and store nothing. -/
theorem act_of_not_pLock {l k : Pc α} {f i} {d d' : Data α} {e}
    (h : prog (T := T) Env.calm l = .act f) (hl : ¬ holds l .pLock)
    (hf : f i d = some (.next d' k e)) :
    d'.size = d.size ∧ d'.ringQueue = d.ringQueue ∧ d'.pStep = d.pStep ∧ stored e = [] := by
  cases access rfl h hf with
  | load | modC => exact ⟨rfl, rfl, rfl, rfl⟩
  | store | modP => exact absurd rfl hl

/-- The accesses of a thread outside the critical section of `pop`.  They leave
`__c_step` and the vector's length, and deliver nothing. -/
theorem act_of_not_cLock {l k : Pc α} {f i} {d d' : Data α} {e}
    (h : prog (T := T) Env.calm l = .act f) (hl : ¬ holds l .cLock)
    (hf : f i d = some (.next d' k e)) :
    d'.size = d.size ∧ d'.ringQueue.length = d.ringQueue.length ∧ d'.cStep = d.cStep ∧
      delivered e = [] := by
  cases access rfl h hf with
  | store => exact ⟨rfl, by simp, rfl, rfl⟩
  | modP => exact ⟨rfl, rfl, rfl, rfl⟩
  | load | modC => exact absurd rfl hl

/-- **`__p_lock` guards the producers' cursor.**  A consumer may be anywhere
meanwhile: it does not touch the cursor, nor the number of stored values. -/
theorem pMonitor (n : ℕ) : Monitor (prog (T := T) (α := α) Env.calm) holds .pLock
    (fun d ev => Shape n d ∧ Cursor n false d.pStep (stored ev).length)
    (fun l d ev => Shape n d ∧ Cursor n (pMoved l) d.pStep (stored ev).length) where
  acquire {l k d ev} h hf := by
    cases l with
    | pushLock v todo =>
      cases h
      exact hf
    | _ => cases h
  release {l k d ev} h hi := by
    cases l with
    | pushUnlock todo =>
      cases h
      exact hi
    | _ => cases h
  sleep {l c} h := c.elim
  wake {l c} h := c.elim
  nested {l c} h := c.elim
  stay {l k d ev} hl hk hn hi := by
    obtain ⟨v, todo, rfl⟩ | ⟨todo, rfl⟩ | ⟨todo, rfl⟩ := holds_pLock hl
    · exact absurd trivial hn
    · exact absurd trivial hn
    · exact absurd rfl hn
  act {l f i d d' k e ev} h hl hf hi := by
    cases access rfl h hf with
    | store => exact ⟨⟨hi.1.1, by simpa using hi.1.2⟩, by simpa [pMoved] using hi.2.move⟩
    | modP =>
      refine ⟨hi.1, ?_⟩
      rw [hi.1.1, List.append_nil]
      exact hi.2.reduce
    | load | modC => cases hl
  others_free {l f i d d' k e ev} h hl hf hi := by
    obtain ⟨hs, hr, hp, he⟩ := act_of_not_pLock h hl hf
    simpa [Shape, hs, hr, hp, he] using hi
  others_inside {l f i d d' k e ev l'} h hl hf hl' hi := by
    obtain ⟨hs, hr, hp, he⟩ := act_of_not_pLock h hl hf
    simpa [Shape, hs, hr, hp, he] using hi

/-- **`__c_lock` guards the consumers' cursor,** as the other lock guards the
producers'.  Between the load and the reduction the cursor is one further than
modulo the size; nobody sees it there. -/
theorem cMonitor (n : ℕ) : Monitor (prog (T := T) (α := α) Env.calm) holds .cLock
    (fun d ev => Shape n d ∧ Cursor n false d.cStep (delivered ev).length)
    (fun l d ev => Shape n d ∧ Cursor n (cMoved l) d.cStep (delivered ev).length) where
  acquire {l k d ev} h hf := by
    cases l with
    | popLock todo =>
      cases h
      exact hf
    | _ => cases h
  release {l k d ev} h hi := by
    cases l with
    | popUnlock todo =>
      cases h
      exact hi
    | _ => cases h
  sleep {l c} h := c.elim
  wake {l c} h := c.elim
  nested {l c} h := c.elim
  stay {l k d ev} hl hk hn hi := by
    obtain ⟨todo, rfl⟩ | ⟨todo, rfl⟩ | ⟨todo, rfl⟩ := holds_cLock hl
    · exact absurd trivial hn
    · exact absurd trivial hn
    · exact absurd rfl hn
  act {l f i d d' k e ev} h hl hf hi := by
    cases access rfl h hf with
    | load => exact ⟨hi.1, by simpa [cMoved] using hi.2.move⟩
    | modC =>
      refine ⟨hi.1, ?_⟩
      rw [hi.1.1, List.append_nil]
      exact hi.2.reduce
    | store | modP => cases hl
  others_free {l f i d d' k e ev} h hl hf hi := by
    obtain ⟨hs, hr, hp, he⟩ := act_of_not_cLock h hl hf
    simpa [Shape, hs, hr, hp, he] using hi
  others_inside {l f i d d' k e ev l'} h hl hf hl' hi := by
    obtain ⟨hs, hr, hp, he⟩ := act_of_not_cLock h hl hf
    simpa [Shape, hs, hr, hp, he] using hi

/-! ### The slots -/

/-- The unread values lie in the ring in order, from the consumers' cursor
on. -/
structure Content (n : ℕ) (d : Data α) (ev : List (Event α)) : Prop where
  shape : Shape n d
  prefixed : delivered ev = (stored ev).take (delivered ev).length
  cStep : d.cStep % n = (delivered ev).length % n
  slots : ∀ j, (delivered ev).length ≤ j → j < (stored ev).length →
    d.ringQueue[j % n]? = (stored ev)[j]?

/-- The slots of two values less than `n` apart are different. -/
theorem mod_ne_of_lt {n i j : ℕ} (hij : i < j) (hn : j < i + n) : i % n ≠ j % n := fun h => by
  have hd : n ∣ j - i := (Nat.modEq_iff_dvd' hij.le).1 h
  have := Nat.le_of_dvd (by omega) hd
  omega

/-- A store fills the slot after the unread values.  There are fewer than `n`
of them, so that the slot is not the slot of one of them, and all stay as they
were. -/
theorem Content.store {n : ℕ} {d : Data α} {ev : List (Event α)} (h : Content n d ev)
    (hp : Cursor n false d.pStep (stored ev).length)
    (hle : (delivered ev).length ≤ (stored ev).length)
    (hlt : (stored ev).length < n + (delivered ev).length) (v : α) :
    Content n { d with ringQueue := d.ringQueue.set d.pStep v, pStep := d.pStep + 1 }
      (ev ++ [.stored v]) where
  shape := ⟨h.shape.1, by simpa using h.shape.2⟩
  prefixed := by simpa [List.take_append_of_le_length hle] using h.prefixed
  cStep := by simpa using h.cStep
  slots j hj hj' := by
    simp only [delivered_append, delivered_stored, List.append_nil, stored_append,
      stored_stored, List.length_append, List.length_singleton] at hj hj' ⊢
    have hpos : d.pStep = (stored ev).length % n := hp
    rcases Nat.lt_or_ge j (stored ev).length with hlast | hlast
    · rw [List.getElem?_set_ne, List.getElem?_append_left hlast, h.slots j hj hlast]
      rw [hpos]
      exact (mod_ne_of_lt hlast (by omega)).symm
    · obtain rfl : j = (stored ev).length := by omega
      have hlen : d.pStep < d.ringQueue.length := by
        rw [h.shape.2, hpos]
        exact Nat.mod_lt _ (by omega)
      rw [← hpos, List.getElem?_set_self hlen]
      simp

/-- A load takes the first of the unread values: what is delivered is the value
stored at that number, and the others stay in the ring. -/
theorem Content.load {n : ℕ} {d : Data α} {ev : List (Event α)} (h : Content n d ev)
    (hc : Cursor n false d.cStep (delivered ev).length)
    (hlt : (delivered ev).length < (stored ev).length) {v : α}
    (hv : d.ringQueue[d.cStep]? = some v) :
    (stored ev)[(delivered ev).length]? = some v ∧
      Content n { d with cStep := d.cStep + 1 } (ev ++ [.delivered v]) := by
  have hpos : d.cStep = (delivered ev).length % n := hc
  have hfirst : (stored ev)[(delivered ev).length]? = some v := by
    rw [← h.slots _ le_rfl hlt, ← hpos, hv]
  refine ⟨hfirst, h.shape, ?_, ?_, fun j hj hj' => ?_⟩
  · simp only [delivered_append, delivered_delivered, stored_append, stored_delivered,
      List.append_nil, List.length_append, List.length_singleton]
    rw [List.take_add_one, hfirst, ← h.prefixed]
    rfl
  · simp only [delivered_append, delivered_delivered, List.length_append, List.length_singleton]
    rw [Nat.add_mod, h.cStep, ← Nat.add_mod]
  · simp only [delivered_append, delivered_delivered, stored_append, stored_delivered,
      List.append_nil, List.length_append, List.length_singleton] at hj hj' ⊢
    exact h.slots j (by omega) hj'

section reachable

variable [Fintype T] [DecidableEq T] [Inhabited α] {n : ℕ} {s : State T α}

omit [Fintype T] in
/-- The producers' cursor is that of the stored values, in every reachable
state; inside the section it may not be reduced yet. -/
theorem pGuarded (hs : (sys Env.calm n).Reachable s) : Guarded holds .pLock
    (fun d ev => Shape n d ∧ Cursor n false d.pStep (stored ev).length)
    (fun l d ev => Shape n d ∧ Cursor n (pMoved l) d.pStep (stored ev).length) s := by
  refine (pMonitor n).inv (locks rfl) (fun _ h => owned_of_init h) (fun s h => ?_) hs
  refine ⟨fun _ => ?_, fun {t l} ht hl => ?_⟩
  · simp [h.data, St.events, h.log, Data.new, Shape, Cursor]
  · obtain ⟨todo, ht'⟩ := h.th t
    rw [ht'] at ht
    cases ht
    cases hl

omit [Fintype T] in
/-- The consumers' cursor is that of the delivered values, in every reachable
state. -/
theorem cGuarded (hs : (sys Env.calm n).Reachable s) : Guarded holds .cLock
    (fun d ev => Shape n d ∧ Cursor n false d.cStep (delivered ev).length)
    (fun l d ev => Shape n d ∧ Cursor n (cMoved l) d.cStep (delivered ev).length) s := by
  refine (cMonitor n).inv (locks rfl) (fun _ h => owned_of_init h) (fun s h => ?_) hs
  refine ⟨fun _ => ?_, fun {t l} ht hl => ?_⟩
  · simp [h.data, St.events, h.log, Data.new, Shape, Cursor]
  · obtain ⟨todo, ht'⟩ := h.th t
    rw [ht'] at ht
    cases ht
    cases hl

omit [Fintype T] in
/-- **Nothing is undefined:** subscripts are in range and `__size` is not `0`.
A ring constructed with no slots would divide by zero, which the hypothesis
excludes. -/
theorem not_faulty (hn : 1 ≤ n) (hs : (sys Env.calm n).Reachable s) :
    ¬ Faulty (prog Env.calm) s := by
  rintro ⟨t, l, f, i, ht, hf, hu⟩
  cases l with
  | pushStore v todo =>
    cases hf
    obtain ⟨hsh, hp⟩ := (pGuarded hs).inside ht rfl
    have hlt : s.data.pStep < s.data.ringQueue.length := by
      rw [hsh.2, show s.data.pStep = _ % n from hp]
      exact Nat.mod_lt _ hn
    simp only [store, hlt, if_true] at hu
    split_ifs at hu <;> cases hu
  | pushMod todo =>
    cases hf
    obtain ⟨hsh, -⟩ := (pGuarded hs).inside ht rfl
    have hne : s.data.size ≠ 0 := by
      rw [hsh.1]
      omega
    simp [modP, hne] at hu
  | popLoad todo =>
    cases hf
    obtain ⟨hsh, hc⟩ := (cGuarded hs).inside ht rfl
    have hlt : s.data.cStep < s.data.ringQueue.length := by
      rw [hsh.2, show s.data.cStep = _ % n from hc]
      exact Nat.mod_lt _ hn
    rw [load, List.getElem?_eq_getElem hlt] at hu
    dsimp only at hu
    split_ifs at hu <;> cases hu
  | popMod todo =>
    cases hf
    obtain ⟨hsh, -⟩ := (cGuarded hs).inside ht rfl
    have hne : s.data.size ≠ 0 := by
      rw [hsh.1]
      omega
    simp [modC, hne] at hu
  | _ => cases hf

/-- The slots hold the unread values in order, in every reachable state.  The
two bounds that a store and a load need come from the permits. -/
theorem content (hs : (sys Env.calm n).Reachable s) : Content n s.data s.events := by
  refine data_invariant (R := (sys Env.calm n).Reachable) (fun _ h => h) (fun s h => ?_) ?_ hs
  · rw [h.data, St.events, h.log]
    exact ⟨⟨rfl, by simp [Data.new]⟩, rfl, rfl, fun j _ hj => by simp at hj⟩
  · rintro s t l f i d k e hr ht hf hnext hc
    cases access rfl hf hnext with
    | @store v todo hlt =>
      obtain ⟨-, hp⟩ := (pGuarded hr).inside ht rfl
      exact hc.store hp (delivered_le hr) (unread_lt_of_pushStore hr ht) v
    | modP =>
      rw [List.append_nil]
      exact ⟨hc.shape, hc.prefixed, hc.cStep, hc.slots⟩
    | load hv =>
      obtain ⟨-, hcur⟩ := (cGuarded hr).inside ht rfl
      exact (hc.load hcur (unread_pos_of_popLoad hr ht) hv).2
    | modC =>
      rw [List.append_nil]
      refine ⟨hc.shape, hc.prefixed, ?_, hc.slots⟩
      rw [hc.shape.1, Nat.mod_mod]
      exact hc.cStep

/-- The unread values, as the events tell them. -/
def pending (ev : List (Event α)) : List α := (stored ev).drop (delivered ev).length

/-- What was stored is what was delivered followed by what is pending.  With
it, first in is first out. -/
theorem stored_eq (hs : (sys Env.calm n).Reachable s) :
    stored s.events = delivered s.events ++ pending s.events := by
  conv_lhs => rw [← List.take_append_drop (delivered s.events).length (stored s.events)]
  rw [← (content hs).prefixed]
  rfl

/-- No more values are pending than there are slots, since each took a permit
of `space`. -/
theorem pending_length_le (hs : (sys Env.calm n).Reachable s) :
    (pending s.events).length ≤ n := by
  have := unread_le hs
  simp only [pending, List.length_drop]
  omega

/-- **The unread values are the next ones in ring order.**  So what lies in the
ring can be read off without the history, and both agree. -/
theorem unread_eq (hs : (sys Env.calm n).Reachable s) :
    unread s.data (pending s.events).length = (pending s.events).map some := by
  have hc := content hs
  refine List.ext_getElem (by simp [unread]) fun i hi _ => ?_
  have hlen : i < (stored s.events).length - (delivered s.events).length := by
    simpa [unread, pending] using hi
  have hmod : (s.data.cStep + i) % s.data.size = ((delivered s.events).length + i) % n := by
    rw [hc.shape.1, Nat.add_mod, hc.cStep, ← Nat.add_mod]
  simp only [unread, List.getElem_map, List.getElem_range, pending, List.getElem_drop]
  rw [hmod, hc.slots _ (by omega) (by omega), List.getElem?_eq_getElem (by omega)]

/-! ### Refinement -/

/-- A state seen as a queue: what was stored, what was delivered, and what lies
in the ring. -/
def view (s : State T α) : Fifo α :=
  ⟨stored s.events, delivered s.events,
    (unread s.data ((stored s.events).length - (delivered s.events).length)).filterMap id⟩

/-- The queue read off the ring is the one the events tell.  The cursors and
slots of the code are what the abstract queue is refined to. -/
theorem view_eq (hs : (sys Env.calm n).Reachable s) :
    view s = ⟨stored s.events, delivered s.events, pending s.events⟩ := by
  have h := unread_eq hs
  rw [pending, List.length_drop] at h
  rw [view, h, List.filterMap_map]
  simp [pending]

/-- **A step of `RingQueue` is a step of the bounded queue or none.**  The
store and the load are its two steps; permits, locks, increments and remainders
are none. -/
theorem refines (n : ℕ) : (sys (T := T) (α := α) Env.calm n).Refines
    (Fifo.queue α (· < n)) view where
  init s h := by
    simp [Fifo.queue, view, h.data, St.events, h.log, unread]
  step s s' hs hstep := by
    have hs' := System.Reachable.step hs hstep
    rw [view_eq hs, view_eq hs']
    obtain ⟨t, hst | hw⟩ := hstep
    · rcases hst.data_cases with ⟨-, hl⟩ | ⟨l, f, i, d, k, e, ht, hf, hnext, rfl⟩
      · exact .inl (by rw [St.events, St.events, hl])
      · cases access rfl hf hnext with
        | @store v todo hstore =>
          have hlt := unread_lt_of_pushStore hs ht
          have hle := delivered_le hs
          right
          have hroom : (pending s.events).length < n := by
            simp only [pending, List.length_drop]
            omega
          simpa [Fifo.queue, pending, List.drop_append_of_le_length hle] using
            (Fifo.Step.enter v hroom : Fifo.Step (· < n) _ _)
        | @load v todo hv =>
          obtain ⟨-, hcur⟩ := (cGuarded hs).inside ht rfl
          have hlt := unread_pos_of_popLoad hs ht
          obtain ⟨hfirst, -⟩ := (content hs).load hcur hlt hv
          have hdrop : pending s.events =
              v :: (stored s.events).drop ((delivered s.events).length + 1) := by
            rw [pending, List.drop_eq_getElem_cons hlt]
            rw [List.getElem?_eq_getElem hlt] at hfirst
            rw [Option.some.inj hfirst]
          right
          rw [hdrop]
          simpa [Fifo.queue, pending] using (Fifo.Step.leave v : Fifo.Step (· < n) _ _)
        | modP | modC =>
          left
          simp
    · obtain ⟨-⟩ := hw
      exact .inl rfl

/-- **`RingQueue` is a bounded FIFO queue.**  For any threads making any calls
in any interleaving, its steps are those of a queue of at most `n` values, and
in every reachable state the values stored are the values delivered followed by
the ones the ring holds, in order, from the consumers' cursor on; nothing the
program does is undefined. -/
theorem fifo (hn : 1 ≤ n) :
    (sys (T := T) (α := α) Env.calm n).Refines (Fifo.queue α (· < n)) view ∧
      ∀ s : State T α, (sys Env.calm n).Reachable s →
        delivered s.events <+: stored s.events ∧
        (∃ rest, stored s.events = delivered s.events ++ rest ∧ rest.length ≤ n ∧
          unread s.data rest.length = rest.map some) ∧
        ¬ Faulty (prog Env.calm) s :=
  ⟨refines n, fun s hs => ⟨⟨_, (stored_eq hs).symm⟩,
    ⟨pending s.events, stored_eq hs, pending_length_le hs, unread_eq hs⟩, not_faulty hn hs⟩⟩

end reachable

/-- A queue of three slots shared by two threads. -/
theorem fifo_three_slots :
    1 ≤ 3 ∧ (sys (T := Fin 2) (α := ℕ) Env.calm 3).Refines (Fifo.queue ℕ (· < 3)) view :=
  ⟨by decide, (fifo (T := Fin 2) (α := ℕ) (n := 3) (by decide)).1⟩

end RingQueue
end OSNetWorkCode
