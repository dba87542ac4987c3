/-
# Calls that are still to be made

Threads that have a list of calls each to make, at places that say which of
them are left (`todo`).  If every call is on the ledger until it leaves its
event, then the calls left and the calls made are all there were
(`Ledger.toMake_add_made`), whatever the schedule.

The second half is about buffers, into which producers put and from which
consumers take.  What a thread has left to do is part of what it had to do, so
a thread that makes calls of one kind only has only such calls left
(`Workload.kind`, `Workload.alike`), and the calls of both kinds can be counted
from their events (`Workload.books`).
-/

import OSNetWorkCode.Pthread.Ledger
import OSNetWorkCode.Pthread.Places

namespace OSNetWorkCode
namespace Pthread

variable {T M S C D L I E K : Type*}

section tally

variable [Fintype T]

/-- How many calls of a kind there are. -/
def total (calls : T → List K) (p : K → Bool) : ℕ := ∑ t, (calls t).countP p

/-- The calls of a kind still to be made. -/
def St.toMake (todo : L → List K) (p : K → Bool) (s : St T M S C D L E) : ℕ :=
  s.tally (Status.weight fun l => (todo l).countP p)

section count

variable {todo : L → List K} {p : K → Bool} {s : St T M S C D L E}

/-- Where no thread has a call of a kind left, none is to be made. -/
theorem St.toMake_eq_zero (h : ∀ t, (s.th t).In fun l => ∀ c ∈ todo l, p c = false) :
    s.toMake todo p = 0 := by
  refine St.tally_eq_zero fun t => ?_
  obtain ⟨l, hl, hnone⟩ := h t
  have hzero : (todo l).countP p = 0 :=
    List.countP_eq_zero.2 fun c hc => by rw [hnone c hc]; exact Bool.false_ne_true
  cases hst : s.th t <;> rw [hst] at hl <;> cases hl <;> exact hzero

/-- A call that is left counts, wherever its thread stands and whether it runs
or sleeps. -/
theorem St.toMake_pos {t : T} {l : L} (hl : (s.th t).place = some l) {c : K} (hc : c ∈ todo l)
    (hp : p c = true) : 0 < s.toMake todo p := by
  have hcount : 0 < (todo l).countP p := List.countP_pos_iff.2 ⟨c, hc, hp⟩
  have hpos : 0 < (s.th t).weight fun l => (todo l).countP p := by
    cases hst : s.th t <;> rw [hst] at hl <;> cases hl <;> exact hcount
  exact Nat.lt_of_lt_of_le hpos (St.le_tally _ t)

end count

/-- **Nothing is made twice or left out.**  The ledger of a kind starts with
all its calls, and each leaves it with its event.  So the numbers agree in
every reachable state, whatever the schedule was. -/
theorem Ledger.toMake_add_made [Fintype S] [DecidableEq T] [DecidableEq M] [DecidableEq S]
    {P : L → Op T M S C D L I E} {todo : L → List K} {p : K → Bool} {made : E → ℤ}
    (H : Ledger P (fun l => ((todo l).countP p : ℤ)) (fun _ => 0) (fun _ => 0) made)
    {init : St T M S C D L E → Prop} {calls : T → List K}
    (hinit : ∀ s, init s → s.log = [] ∧ ∀ t, ∃ l, s.th t = .run l ∧ todo l = calls t)
    {s : St T M S C D L E} (hs : (system P init).Reachable s) :
    (s.toMake todo p : ℤ) + (s.events.map made).sum = total calls p := by
  have hbalance := H.balance (b := (total calls p : ℤ)) (fun s h => ?_) hs
  · simpa [St.toMake, St.balance, St.banked, St.tally_weight_cast] using hbalance
  · obtain ⟨hlog, hth⟩ := hinit s h
    have htally : s.tally (Status.weight fun l => (todo l).countP p) = total calls p :=
      Finset.sum_congr rfl fun t _ => by
        obtain ⟨l, hl, hcalls⟩ := hth t
        rw [hl, ← hcalls]
        rfl
    simp only [St.balance, St.banked, St.tally_weight_cast, htally, St.events, hlog]
    simp

end tally

/-! ### Producers and consumers -/

variable {α : Type*}

/-- A call on a buffer: a value is put into it, or one is taken out. -/
inductive Call (α : Type*)
  | push (v : α)
  | pop

/-- The calls that put a value into the buffer. -/
def Call.isPush : Call α → Bool
  | .push _ => true
  | .pop => false

/-- The calls that take one out. -/
def Call.isPop : Call α → Bool
  | .push _ => false
  | .pop => true

/-- There are no calls of a third kind, so that one of the two questions
answers the other. -/
theorem Call.isPop_eq (c : Call α) : c.isPop = !c.isPush := by
  cases c <;> rfl

/-- Every thread makes only pushes or only pops: it is a producer or a
consumer. -/
def OneKind (calls : T → List (Call α)) : Prop :=
  ∀ t, (∀ c ∈ calls t, c.isPush = true) ∨ ∀ c ∈ calls t, c.isPop = true

/-- What an event adds to the calls made: one if the call that it is the effect
of is of the kind. -/
def made (effect : E → Option K) (p : K → Bool) (e : E) : ℤ := (effect e).toList.countP p

/-- The sum over the events is the number of such effects, which is how a
ledger in `ℤ` counts them. -/
theorem sum_made (effect : E → Option K) (p : K → Bool) (ev : List E) :
    (ev.map (made effect p)).sum = (ev.filterMap effect).countP p := by
  induction ev with
  | nil => rfl
  | cons e ev ih =>
    rw [List.map_cons, List.sum_cons, ih, made]
    cases he : effect e with
    | none => simp [List.filterMap_cons_none he]
    | some c =>
      rw [List.filterMap_cons_some he, List.countP_cons, Option.toList_some, List.countP_singleton]
      push_cast
      exact add_comm _ _

/-- The threads of a program have their own calls to make.  A step of a thread
brings back none that it had not still to make, and takes one away only with an
event that is its effect. -/
structure Workload (P : L → Op T M S C D L I E) (init : St T M S C D L E → Prop)
    (todo : L → List (Call α)) (effect : E → Option (Call α)) (calls : T → List (Call α)) :
    Prop where
  starts : ∀ s, init s → s.log = [] ∧ ∀ t, ∃ l, s.th t = .run l ∧ todo l = calls t
  subset : ∀ {l k}, (P l).Leads k → todo k ⊆ todo l
  ledger : ∀ p : Call α → Bool,
    Ledger P (fun l => ((todo l).countP p : ℤ)) (fun _ => 0) (fun _ => 0) (made effect p)

namespace Workload

variable {P : L → Op T M S C D L I E} {init : St T M S C D L E → Prop}
  {todo : L → List (Call α)} {effect : E → Option (Call α)} {calls : T → List (Call α)}
  {s : St T M S C D L E} [DecidableEq T] [DecidableEq M] [DecidableEq S]

/-- **The calls of a kind still to be made and those made are all there are.**
The kind is any property of calls: the pushes, the pops, or the pushes of one
value. -/
theorem books [Fintype T] [Fintype S] (H : Workload P init todo effect calls)
    (hs : (system P init).Reachable s) (p : Call α → Bool) :
    s.toMake todo p + (s.events.filterMap effect).countP p = total calls p := by
  have hmade := (H.ledger p).toMake_add_made H.starts hs
  rw [sum_made] at hmade
  exact_mod_cast hmade

/-- What a thread has to make of one kind stays of that kind: its list of calls
only loses elements, however the loop around it goes. -/
theorem kind (H : Workload P init todo effect calls) (hs : (system P init).Reachable s)
    (p : Call α → Bool) {t : T} (hp : ∀ c ∈ calls t, p c = true) :
    (s.th t).In fun l => ∀ c ∈ todo l, p c = true := by
  have hclosed : Closed P fun l => ∀ c ∈ todo l, p c = true := by
    intro l k hl hk c hc
    exact hl c (H.subset hk hc)
  refine hclosed.reachable (fun s h => ?_) hs
  obtain ⟨l, hl, hcalls⟩ := (H.starts s h).2 t
  exact ⟨l, by rw [hl]; rfl, fun c hc => hp c (hcalls ▸ hc)⟩

/-- **What a thread has to make is all of one kind,** if that was so in the
beginning.  So the call that a thread sleeps in tells what it has left. -/
theorem alike (H : Workload P init todo effect calls) (hkind : OneKind calls)
    (hs : (system P init).Reachable s) {t : T} {l : L} (hl : (s.th t).place = some l)
    {c c' : Call α} (hc : c ∈ todo l) (hc' : c' ∈ todo l) :
    c'.isPush = c.isPush ∧ c'.isPop = c.isPop := by
  rcases hkind t with hk | hk
  · obtain ⟨l', hplace, honly⟩ := H.kind hs _ hk
    obtain rfl := Option.some.inj (hl.symm.trans hplace)
    have h : c'.isPush = c.isPush := (honly c' hc').trans (honly c hc).symm
    exact ⟨h, by rw [c'.isPop_eq, c.isPop_eq, h]⟩
  · obtain ⟨l', hplace, honly⟩ := H.kind hs _ hk
    obtain rfl := Option.some.inj (hl.symm.trans hplace)
    have h : c'.isPop = c.isPop := (honly c' hc').trans (honly c hc).symm
    refine ⟨Bool.not_inj ?_, h⟩
    rwa [c'.isPop_eq, c.isPop_eq] at h

end Workload

/-- A producer of three values and a consumer of two. -/
def threeForTwo : Fin 2 → List (Call ℕ)
  | 0 => [.push 7, .push 8, .push 9]
  | 1 => [.pop, .pop]

/-- One of the two produces and the other consumes. -/
theorem oneKind_threeForTwo : OneKind threeForTwo := fun t => by
  match t with
  | 0 => exact .inl (by decide)
  | 1 => exact .inr (by decide)

end Pthread
end OSNetWorkCode
