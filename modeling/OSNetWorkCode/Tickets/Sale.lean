/-
# Every ticket is sold once, and nobody returns

Print and decrement are two steps.  While the mutex is free the numbers printed
and those on the tickets left are, one after the other, all the numbers
(`Left`); between print and decrement the count is one too high for that, which
the invariant of the critical section says (`inside`).  A thread leaves its
loop only where it has found no ticket left, and none comes back
(`soldOut_of_left`), so by then all numbers were printed (`sold_of_soldOut`).

Behind the loop the thread flows off the end of `getTickets`, which nothing
defines.  A state without steps is one where every seller stands there
(`stranded_of_quiescent`); hence none of them has returned, and `main` waits in
`pthread_join`.  As long as each thread that looks finds a ticket left,
somebody has a step, and all is as it should be (`sells_every_ticket_once`).
-/

import OSNetWorkCode.Pthread.Monitor
import OSNetWorkCode.Pthread.Schedule
import OSNetWorkCode.Pthread.Starter
import OSNetWorkCode.Tickets.Model

namespace OSNetWorkCode
namespace Tickets

open Pthread

section prog

variable {T S C : Type*} {us : List T} {tickets : ℕ}

/-- The lock is taken at the head of the loop, and given back on both branches
of the test: where a ticket is sold, and before `break`. -/
theorem locks : Locks (prog (S := S) (C := C) us) holds where
  lock {l m k} h := by
    cases calls h
    exact id
  unlock {l m k} h := by
    cases calls h <;> trivial
  condWait {l c m k} h := by cases calls h
  create {l start k} h m := by
    cases calls h
    exact id
  leads {l k} hk m := by
    cases m
    cases next_of_leads hk with
    | lock => exact ⟨fun _ => .inl rfl, fun _ => trivial⟩
    | unlock | unlockBreak => exact ⟨False.elim, fun h => h.1 rfl⟩
    | _ => exact Iff.rfl

/-- Nothing blocks while the mutex is held: the sleep in the critical section
is only time.  So who has the lock can always go on. -/
theorem prompt : Prompt (prog (S := S) (C := C) us) holds where
  lock {l m k} h m' := by
    cases calls h
    exact id
  condWait {l c m k} h := by cases calls h
  semWait {l x k intr} h := by cases calls h
  create {l start k} h m := by
    cases calls h
    exact id
  join {l u k} h m := by
    cases calls h
    exact id
  act {l f m} h _ d := by
    cases calls h <;> exact ⟨(), _, rfl⟩
  exit {l} h m := by
    cases calls h
    exact id

/-- Nothing is undefined while the mutex is held: the end of `getTickets` is
reached without it. -/
theorem not_faultyInside [DecidableEq T] [DecidableEq S] (s : St T Mutex S C Data (Pc T) ℤ) :
    ¬ FaultyInside (prog us) holds s := by
  rintro ⟨t, l, m, f, i, -, hold, hop, hf⟩
  cases calls hop with
  | bodyEnd => exact hold
  | created => exact hold
  | test | print | decrement => cases hf

/-! ### The count and the numbers printed -/

/-- `k` tickets are left, and `sold` was printed: together they are all. -/
structure Left (tickets k : ℕ) (d : Data) (sold : List ℤ) : Prop where
  count : d.tickets = k
  all : sold ++ numbers k = numbers tickets

/-- What holds while the mutex is free. -/
def free (tickets : ℕ) (d : Data) (sold : List ℤ) : Prop := ∃ k, Left tickets k d sold

/-- What holds at a place inside the critical section. -/
def inside {T : Type*} (tickets : ℕ) : Pc T → Data → List ℤ → Prop
  | .print, d, sold => ∃ k, Left tickets (k + 1) d sold
  | .decrement, d, sold => ∃ k, Left tickets k ⟨d.tickets - 1⟩ sold
  | _, d, sold => free tickets d sold

/-- A ticket whose number is printed is one of those left, and its number is
the count: what is left after it has one ticket less. -/
theorem Left.print {k : ℕ} {d : Data} {sold : List ℤ} (h : Left tickets (k + 1) d sold) :
    Left tickets k ⟨d.tickets - 1⟩ (sold ++ [d.tickets]) where
  count := by
    rw [h.count, Nat.cast_succ, add_sub_cancel_right]
  all := by
    rw [h.count, List.append_assoc]
    exact h.all

/-- **The numbers printed and the tickets left are all there are.**  Between
the print and the decrement the count says one more than that, and only the
thread inside can see it. -/
theorem monitor : Monitor (prog (S := S) (C := C) us) holds .mtx (free tickets)
    (inside tickets) where
  acquire {l k d ev} h hfree := by
    cases calls h
    exact hfree
  release {l k d ev} h hin := by
    cases calls h <;> exact hin
  sleep {l c k d ev} h := by cases calls h
  wake {l c k d ev} h := by cases calls h
  nested {l c m' k} h := by cases calls h
  stay {l k d ev} hl hk htouch hin := by
    cases next_of_leads hk with
    | unlock | unlockBreak => exact absurd rfl htouch
    | left | soldOut | print | decrement => exact absurd trivial htouch
    | _ => exact hl.elim
  act {l f i d d' k e ev} h hl hf hin := by
    cases calls h with
    | test =>
      cases hf
      obtain ⟨k, hk⟩ := hin
      rw [List.append_nil]
      split_ifs with hpos
      · -- a ticket is left, so the count is a successor
        cases k with
        | zero => exact absurd hpos (by rw [hk.count]; exact lt_irrefl _)
        | succ k => exact ⟨k, hk⟩
      · exact ⟨k, hk⟩
    | print =>
      cases hf
      obtain ⟨k, hk⟩ := hin
      exact ⟨k, hk.print⟩
    | decrement =>
      cases hf
      rw [List.append_nil]
      exact hin
    | created | bodyEnd => exact hl.elim
  others_free {l f i d d' k e ev} h hl hf hfree := by
    cases calls h with
    | created =>
      cases hf
      rw [List.append_nil]
      exact hfree
    | bodyEnd => cases hf
    | _ => exact absurd trivial hl
  others_inside {l f i d d' k e ev l'} h hl hf _ hin := by
    cases calls h with
    | created =>
      cases hf
      rw [List.append_nil]
      exact hin
    | bodyEnd => cases hf
    | _ => exact absurd trivial hl

/-- The places of a thread that has found no ticket left. -/
def leaves {T : Type*} : Pc T → Prop
  | .unlockBreak | .bodyEnd => True
  | _ => False

/-- **Who leaves has found no ticket left**, and that stays so: nobody puts
tickets back.  A seller learns it at the test, and the only step that changes
the number makes it smaller. -/
theorem learns : Learns (prog (S := S) (C := C) us) leaves fun d => d.tickets ≤ 0 where
  stay {l k} hact hk hk' := by
    cases next_of_leads hk with
    | unlockBreak => trivial
    | soldOut => exact absurd rfl (hact _)
    | _ => exact hk'.elim
  create {l start k} h hstart := by
    cases calls h
    exact hstart.elim
  act {l f i d d' k e} h hf hk := by
    cases calls h with
    | test =>
      cases hf
      split_ifs at hk with hpos
      · exact hk.elim
      · exact .inr (not_lt.1 hpos)
    | bodyEnd => cases hf
    | created | print | decrement =>
      cases hf
      exact hk.elim
  stable {l f i d d' k e} h hf hd := by
    cases calls h with
    | decrement =>
      cases hf
      exact (sub_le_self _ zero_le_one).trans hd
    | bodyEnd => cases hf
    | created | test | print =>
      cases hf
      exact hd

end prog

/-! ### Who stands where -/

section places

variable {tickets n : ℕ} {s : State n}

/-- The places of `main`, which joins sellers only. -/
def ofMain : Pc (Tid n) → Prop
  | .create _ => True
  | .join us => ∀ u ∈ us, u ≠ none
  | _ => False

/-- The places of a seller. -/
def ofSeller {T : Type*} : Pc T → Prop
  | .create _ | .join _ => False
  | _ => True

/-- How many threads `main` has still to start. -/
def toStart {T : Type*} : Pc T → ℕ
  | .create i => i
  | _ => 0

/-- `main` stays in its two loops. -/
theorem closed_ofMain : Closed (prog (S := Empty) (C := Empty) (tids n)) ofMain := by
  intro l k hl hk
  cases next_of_leads hk with
  | create => trivial
  | created =>
    intro u hu
    obtain ⟨i, -, rfl⟩ := List.mem_map.1 hu
    exact Option.some_ne_none i
  | join => exact fun u hu => hl u (List.mem_cons_of_mem _ hu)
  | _ => exact hl.elim

/-- A seller stays in `getTickets`. -/
theorem closed_ofSeller : Closed (prog (S := Empty) (C := Empty) (tids n)) ofSeller := by
  intro l k hl hk
  cases next_of_leads hk with
  | create | created | join => exact hl.elim
  | _ => trivial

/-- `main` starts the sellers: it counts down to none, and waits on no
condition variable. -/
theorem starter : Starter (prog (S := Empty) (C := Empty) (tids n)) ofMain ofSeller toStart where
  main := closed_ofMain
  others := closed_ofSeller
  wait {l c m k} h := c.elim
  create {l start k} h := by
    cases calls h
    exact ⟨id, trivial, rfl⟩
  stay {l k} hmain hcreate hk := by
    cases next_of_leads hk with
    | create => exact absurd rfl (hcreate _ _)
    | created | join => rfl
    | _ => exact hmain.elim

/-- At the start `main` is alone and has all sellers still to start, each of
them once. -/
theorem begun (s : State n) (h : s = start tickets n) : Begun ofMain toStart none s where
  runs := by
    subst h
    refine ⟨.create n, rfl, trivial, ?_⟩
    show ∑ t : Tid n, _ = n
    rw [Fintype.sum_option]
    show 0 + ∑ _ : Fin n, 1 = n
    simp
  others t ht := by
    subst h
    cases t with
    | none => exact absurd rfl ht
    | some i => rfl

/-- At the start nobody owns the mutex, and nobody is inside. -/
theorem owned_start (s : State n) (h : s = start tickets n) :
    Owned (prog (tids n)) holds s := by
  subst h
  constructor
  · rintro m (_ | i)
    · exact ⟨fun h => absurd h (Option.some_ne_none _).symm, False.elim⟩
    · exact ⟨fun h => absurd h (Option.some_ne_none _).symm, False.elim⟩
  · rintro (_ | i) <;> trivial

/-- In every reachable state the owner of the mutex is the seller that stands
between lock and unlock. -/
theorem owned (hs : (runs tickets n).Reachable s) : Owned (prog (tids n)) holds s :=
  locks.owned owned_start hs

/-- **The invariant of the monitor, in every reachable state:** `free` while
the mutex is, and `inside` for the thread that has it. -/
theorem guarded (hs : (runs tickets n).Reachable s) :
    Guarded holds .mtx (free tickets) (inside tickets) s := by
  refine monitor.inv locks owned_start (fun s h => ?_) hs
  subst h
  refine ⟨fun _ => ⟨tickets, rfl, rfl⟩, fun {t l} hl hholds => ?_⟩
  cases t with
  | none =>
    obtain rfl : Pc.create n = l := Status.run.inj hl
    exact hholds.elim
  | some i => cases hl

/-- **Whoever has left the loop has found no ticket left,** and there is none
from then on.  No lock is asked for: it is known at the places behind the loop
for good. -/
theorem soldOut_of_left (hs : (runs tickets n).Reachable s) {i : Fin n}
    (hi : s.th (some i) = .run .bodyEnd) : s.data.tickets ≤ 0 := by
  refine learns.known (fun s t h hin => ?_) hs (some i) (by rw [hi]; exact ⟨_, rfl, trivial⟩)
  obtain ⟨l, hplace, hl⟩ := hin
  subst h
  cases t with
  | none =>
    cases hplace
    exact hl
  | some i => cases hplace

/-! ### The books at every place -/

/-- The numbers printed are the first of all, and the count is not negative. -/
structure Fair (tickets : ℕ) (d : Data) (sold : List ℤ) : Prop where
  printed : sold <+: numbers tickets
  count : 0 ≤ d.tickets

/-- Where the books are balanced they are fair: what is sold is the beginning
of all numbers, and no less than none is left. -/
theorem Left.fair {k : ℕ} {d : Data} {sold : List ℤ} (h : Left tickets k d sold) :
    Fair tickets d sold where
  printed := ⟨numbers k, h.all⟩
  count := by
    rw [h.count]
    exact Int.natCast_nonneg k

/-- They are fair at the places inside the critical section too, though the
count is behind there. -/
theorem inside_fair {l : Pc (Tid n)} {d : Data} {sold : List ℤ} (h : inside tickets l d sold) :
    Fair tickets d sold := by
  cases l with
  | print =>
    obtain ⟨k, hk⟩ := h
    exact hk.fair
  | decrement =>
    obtain ⟨k, hk⟩ := h
    exact ⟨hk.fair.printed, hk.fair.count.trans (sub_le_self _ zero_le_one)⟩
  | _ =>
    obtain ⟨k, hk⟩ := h
    exact hk.fair

/-- Where no ticket is left all numbers were printed: at the places where the
count is too high by one, or known to be positive, it is not zero. -/
theorem inside_sold {l : Pc (Tid n)} {d : Data} {sold : List ℤ} (h : inside tickets l d sold)
    (hd : d.tickets ≤ 0) : sold = numbers tickets := by
  have hzero : ∀ {k}, Left tickets k d sold → sold = numbers tickets := fun {k} hk => by
    have hcount := hk.count
    have hall := hk.all
    rwa [show k = 0 by omega, numbers, List.append_nil] at hall
  cases l with
  | print =>
    obtain ⟨k, hk⟩ := h
    exact hzero hk
  | decrement =>
    obtain ⟨k, hk⟩ := h
    have hcount : d.tickets - 1 = k := hk.count
    omega
  | _ =>
    obtain ⟨k, hk⟩ := h
    exact hzero hk

/-- **What holds in every state,** whether the mutex is free or somebody is
inside.  It is enough to show it for the balanced books and for each place
inside. -/
theorem of_guarded {R : Data → List ℤ → Prop} (hs : (runs tickets n).Reachable s)
    (hfree : ∀ {d sold}, free tickets d sold → R d sold)
    (hinside : ∀ {l : Pc (Tid n)} {d sold}, inside tickets l d sold → R d sold) :
    R s.data s.events := by
  have hguarded := guarded hs
  cases hm : s.owner .mtx with
  | none => exact hfree (hguarded.free hm)
  | some t =>
    have hholds := ((owned hs).owner .mtx t).1 hm
    cases hst : s.th t with
    | run l =>
      rw [hst] at hholds
      exact hinside (hguarded.inside hst hholds)
    | unborn =>
      rw [hst] at hholds
      exact hholds.elim
    | waiting c m k => exact c.elim
    | woken m k =>
      obtain ⟨l, c, -⟩ := (owned hs).woken hst
      exact c.elim

/-- **The books are fair in every state:** what was printed is a part of all
from the front, and the count has not gone below zero. -/
theorem fair (hs : (runs tickets n).Reachable s) : Fair tickets s.data s.events :=
  of_guarded hs (fun ⟨_, hk⟩ => hk.fair) inside_fair

/-- **Sold out is sold:** where the count is zero all numbers were printed.
There is no state in between, in which a ticket is taken off and its number
still to be printed. -/
theorem sold_of_soldOut (hs : (runs tickets n).Reachable s) :
    s.data.tickets ≤ 0 → s.events = numbers tickets :=
  of_guarded (R := fun d sold => d.tickets ≤ 0 → sold = numbers tickets) hs
    (fun h => inside_sold (n := n) (l := .lock) h) inside_sold

/-! ### The end -/

/-- `main` runs, at its first loop or at its second. -/
theorem main_runs (hs : (runs tickets n).Reachable s) : ∃ l, s.th none = .run l ∧ ofMain l := by
  obtain ⟨l, hl, hmain, -⟩ := starter.main_place begun hs
  exact ⟨l, hl, hmain⟩

/-- No seller returns: only `main` comes to a place where its function is
over. -/
theorem not_returned_of_seller {l : Pc (Tid n)} (hseller : ofSeller l) :
    prog (S := Empty) (C := Empty) (tids n) l ≠ .exit := fun hop => by
  cases calls hop
  exact hseller

/-- A thread that `main` joins is a seller, so that the join does not
succeed. -/
theorem not_joined {s' : State n} (hs : (runs tickets n).Reachable s) {u : Tid n} {us : List (Tid n)}
    (hl : s.th none = .run (.join (u :: us))) (hst : Step (prog (tids n)) s none s') : False := by
  obtain ⟨l, hl', hmain⟩ := main_runs hs
  rw [hl] at hl'
  cases hl'
  have hu : u ≠ none := hmain u List.mem_cons_self
  obtain ⟨l', hrun, hexit, -⟩ := hst.makes hl
  obtain ⟨k, hplace, hseller⟩ := starter.all_born begun hs hl rfl hu
  rw [hrun] at hplace
  cases hplace
  exact not_returned_of_seller hseller hexit

/-- **`main` joins nobody:** where it stands at its joins all of them are still
to be made.  No seller comes to an end that could be joined, since none
returns. -/
theorem joins_all (hs : (runs tickets n).Reachable s) {us : List (Tid n)}
    (h : s.th none = .run (.join us)) : us = tids n := by
  suffices hall : ∀ us, s.th none = .run (.join us) → us = tids n from hall us h
  clear h
  refine hs.invariant (I := fun s => ∀ us, s.th none = .run (.join us) → us = tids n) ?_ ?_
  · rintro _ rfl us h
    cases h
  · rintro s s' hs ih ⟨t, hst | hw⟩ us h
    · obtain ⟨l, hl, hmain⟩ := main_runs hs
      cases t with
      | none =>
        obtain ⟨k, hk, hleads⟩ := hst.leads hl fun c => c.elim
        rw [h] at hk
        cases hk
        cases next_of_leads hleads with
        | created => rfl
        | join => exact (not_joined hs hl hst).elim
      | some i =>
        have hstays := hst.run_stays (u := none) nofun hl
        rw [h] at hstays
        cases hstays
        exact ih us hl
    · obtain @⟨c, m, k, -⟩ := hw
      exact c.elim

/-- Where nobody has a step the mutex is free: whoever held it would go on. -/
theorem free_of_quiescent (hs : (runs tickets n).Reachable s) (hq : Quiescent (prog (tids n)) s) :
    s.owner .mtx = none :=
  hq.owner_eq_none locks prompt (owned hs) (not_faultyInside s) .mtx

/-- Where nobody has a step `main` is at its joins.  In its first loop it could
go on, for there is a thread to start. -/
theorem joins_of_quiescent (hs : (runs tickets n).Reachable s)
    (hq : Quiescent (prog (tids n)) s) : s.th none = .run (.join (tids n)) := by
  obtain ⟨l, hl, hmain⟩ := main_runs hs
  cases l with
  | join us =>
    obtain rfl := joins_all hs hl
    exact hl
  | create i =>
    cases i with
    | zero => exact absurd (.act (i := ()) hl rfl rfl) (hq none _)
    | succ i =>
      obtain ⟨u, hu⟩ := starter.exists_unborn begun hs hl rfl
      exact absurd (.create hl rfl hu) (hq none _)
  | _ => exact hmain.elim

/-- **Then every seller is at the end of `getTickets`.**  It holds no mutex,
and the mutex is free, so that it could go on anywhere else. -/
theorem bodyEnd_of_quiescent (hs : (runs tickets n).Reachable s)
    (hq : Quiescent (prog (tids n)) s) (i : Fin n) : s.th (some i) = .run .bodyEnd := by
  have hfree := free_of_quiescent hs hq
  obtain ⟨l, hplace, hseller⟩ :=
    starter.all_born begun hs (joins_of_quiescent hs hq) rfl (t := some i) (Option.some_ne_none i)
  have hholds : ∀ {m}, s.th (some i) = .run l → ¬ holds l m := fun hl hold => by
    obtain ⟨s', hst⟩ :=
      exists_step_of_holds locks prompt (owned hs) (not_faultyInside s) hl hold
    exact hq _ _ hst
  cases hst : s.th (some i) with
  | unborn =>
    rw [hst] at hplace
    cases hplace
  | waiting c m k => exact c.elim
  | woken m k =>
    obtain ⟨l, c, -⟩ := (owned hs).woken hst
    exact c.elim
  | run l' =>
    obtain rfl : l' = l := by
      rw [hst] at hplace
      exact Option.some.inj hplace
    cases l' with
    | bodyEnd => rfl
    | lock => exact absurd (.lock hst rfl hfree) (hq _ _)
    | create | join => exact hseller.elim
    | test | print | decrement | unlock | unlockBreak => exact absurd trivial (hholds (m := .mtx) hst)

/-- **A state without steps:** everything is sold, but all sellers stand at the
end of `getTickets`, where no step is defined, and `main` is waiting for the
first of them. -/
theorem stranded_of_quiescent (hn : 1 ≤ n) (hs : (runs tickets n).Reachable s)
    (hq : Quiescent (prog (tids n)) s) : Stranded tickets s := by
  have hend := bodyEnd_of_quiescent hs hq
  exact ⟨joins_of_quiescent hs hq, hend, free_of_quiescent hs hq,
    sold_of_soldOut hs (soldOut_of_left hs (hend ⟨0, hn⟩))⟩

/-- A stranded seller has not returned.  There is a seller, since there is a
thread. -/
theorem Stranded.not_soldOut (hn : 1 ≤ n) (h : Stranded tickets s) : ¬ SoldOut tickets s :=
  fun hsold => by
    obtain ⟨l, hl, hexit⟩ := hsold.returned (some ⟨0, hn⟩)
    rw [h.bodyEnd] at hl
    cases hl
    cases calls hexit

end places

/-! ### Runs in which there is always a ticket left -/

section unsold

variable {tickets n : ℕ} {s s' : State n}

/-- A thread that looks while there is a ticket left does not leave: its test
sends it on to the print. -/
theorem not_leaves_of_step {t u : Tid n} (hok : WhileLeft s t)
    (hst : Step (prog (tids n)) s t s') (hnot : ∀ u, ¬ (s.th u).In leaves) :
    ¬ (s'.th u).In leaves := by
  rintro ⟨k, hplace, hk⟩
  rcases hst.quiet_or_act with hquiet | ⟨l, f, i, d, k', e, hl, hop, hf, rfl⟩
  · have hmoves := hquiet.moves u
    rw [hplace] at hmoves
    generalize hp : some k = p at hmoves
    cases hmoves with
    | stays => exact hnot u ⟨k, hp.symm, hk⟩
    | goes hl hu hact hleads =>
      cases hp
      cases next_of_leads hleads with
      | unlockBreak => exact hnot t ⟨.unlockBreak, by rw [hl]; rfl, trivial⟩
      | soldOut => exact hact _ rfl
      | _ => exact hk
    | begins hl hop hu =>
      cases hp
      cases calls hop
      exact hk
  · by_cases hu : u = t
    · subst hu
      rw [St.put_th, Function.update_self] at hplace
      obtain rfl := Option.some.inj hplace
      cases calls hop with
      | test =>
        cases hf
        rw [if_pos (hok hl)] at hk
        exact hk
      | bodyEnd => cases hf
      | created | print | decrement =>
        cases hf
        exact hk
    · rw [St.put_th, Function.update_of_ne hu] at hplace
      exact hnot u ⟨k, hplace, hk⟩

/-- **Nobody leaves the loop** in such a run.  So it does not come to a state
without steps, for in that one all have left. -/
theorem not_leaves (hs : (unsold tickets n).Reachable s) (t : Tid n) : ¬ (s.th t).In leaves := by
  revert t
  refine hs.invariant (I := fun s => ∀ t, ¬ (s.th t).In leaves) ?_ ?_
  · rintro _ rfl t ⟨l, hplace, hl⟩
    cases t with
    | none =>
      cases hplace
      exact hl
    | some i => cases hplace
  · rintro s s' - ih ⟨t, ⟨hok, hst⟩ | hw⟩ u
    · exact not_leaves_of_step hok hst ih
    · obtain @⟨c, m, k, -⟩ := hw
      exact c.elim

end unsold

/-- **Every ticket is sold once, but nobody returns.**  For every number of
tickets and every number of threads from one on.  In every run in which whoever
looks at the count finds a ticket left, the numbers printed are in order the
first of all numbers, `tickets` is never negative, and a state where nobody has
a step (there is none) is one where all threads have returned and everything is
sold.  In all other runs the books are right as well; but a state where nobody
has a step is one where the sellers stand at the end of `getTickets`, from
which they cannot return. -/
theorem sells_every_ticket_once (tickets n : ℕ) (hn : 1 ≤ n) :
    (∀ s : State n, (unsold tickets n).Reachable s →
      s.events <+: numbers tickets ∧ 0 ≤ s.data.tickets ∧
        (Quiescent (prog (tids n)) s → SoldOut tickets s)) ∧
    ∀ s : State n, (runs tickets n).Reachable s →
      s.events <+: numbers tickets ∧ 0 ≤ s.data.tickets ∧
        (Quiescent (prog (tids n)) s → Stranded tickets s ∧ ¬ SoldOut tickets s) := by
  refine ⟨fun s hs => ?_, fun s hs => ⟨(fair hs).printed, (fair hs).count, fun hq => ?_⟩⟩
  · have hfree : (runs tickets n).Reachable s := restricted_free hs
    refine ⟨(fair hfree).printed, (fair hfree).count, fun hq => ?_⟩
    have hend := bodyEnd_of_quiescent hfree hq ⟨0, hn⟩
    exact (not_leaves hs (some ⟨0, hn⟩) ⟨.bodyEnd, by rw [hend]; rfl, trivial⟩).elim
  · have hstranded := stranded_of_quiescent hn hs hq
    exact ⟨hstranded, hstranded.not_soldOut hn⟩

/-- One thread sells two tickets, then finds none left. -/
def sale : List (Tid 1 × Choice (Tid 1) Unit) :=
  let sells := [(some 0, .go), (some 0, .input ()), (some 0, .input ()), (some 0, .input ()),
    (some 0, .go)]
  [(none, .start (some 0)), (none, .input ())] ++ sells ++ sells ++
    [(some 0, .go), (some 0, .input ()), (some 0, .go)]

/-- Where it stands then nobody has a step.  The tickets are sold in the order
of their numbers, from the highest down. -/
theorem exists_stranded : ∃ s : State 1, (runs 2 1).Reachable s ∧
    Quiescent (prog (tids 1)) s ∧ s.events = [2, 1] ∧ s.th (some 0) = .run .bodyEnd := by
  obtain ⟨s, hs, hmain, hseller, hevents⟩ : ∃ s : State 1,
      replay (prog (tids 1)) (start 2 1) sale = some s ∧
      s.th none = .run (.join [some 0]) ∧ s.th (some 0) = .run .bodyEnd ∧ s.events = [2, 1] :=
    ⟨_, rfl, rfl, rfl, rfl⟩
  have hjoin : ∀ l, s.th (some 0) = .run l →
      prog (S := Empty) (C := Empty) (tids 1) l ≠ .exit := by
    rw [hseller]
    nofun
  refine ⟨s, replay_reachable _ (.init rfl) hs, fun t s' hst => ?_, hevents, hseller⟩
  rcases t with _ | i
  · exact (Stalled.join (P := prog (tids 1)) hmain rfl hjoin).not_step s' hst
  · obtain rfl := Subsingleton.elim i 0
    obtain ⟨_, _, _, _, hf, -⟩ := hst.makes hseller
    cases hf

/-- It has printed `2` and `1`, and cannot return. -/
theorem sells_every_ticket_once_two : ∃ s : State 1, (runs 2 1).Reachable s ∧
    Quiescent (prog (tids 1)) s ∧ s.events = [2, 1] ∧ Stranded 2 s := by
  obtain ⟨s, hs, hq, hevents, -⟩ := exists_stranded
  exact ⟨s, hs, hq, hevents, (((sells_every_ticket_once 2 1 le_rfl).2 s hs).2.2 hq).1⟩

/-- **Nobody returns:** two tickets and one thread, which flows off the end of
`getTickets`. -/
theorem flows_off_the_end : ∃ s : State 1, (runs 2 1).Reachable s ∧
    Quiescent (prog (tids 1)) s ∧ Faulty (prog (tids 1)) s ∧ ¬ SoldOut 2 s := by
  obtain ⟨s, hs, hq, -, hseller⟩ := exists_stranded
  refine ⟨s, hs, hq, ⟨some 0, .bodyEnd, fallsOff, (), hseller, rfl, rfl⟩, fun hsold => ?_⟩
  obtain ⟨l, hl, hexit⟩ := hsold.returned (some 0)
  rw [hseller] at hl
  cases hl
  cases calls hexit

end Tickets
end OSNetWorkCode
