/-
# What an interrupted `sem_wait` does to `RingQueue`

`Sem::p` does not look at the result of `sem_wait`.  When a signal handler
interrupts the wait it returns `-1` with `EINTR`, no permit was taken, and
`push` or `pop` goes on as if it had one.  `Interrupted` is that step, and it
is the only one that leaves `Sem::p` without a permit (`permitTaken_iff`).

`Marked` carries beside a state which slots were written since they were last
read, as the stores and loads find them, whatever the cursors and the
semaphores say.  A run without interrupted waits is a run of `Env.calm`
(`calm_of_marked`), so that the slots marked are those of the unread values
(`written_iff`), a consumer about to load finds its slot marked and a producer
about to store finds it unmarked.  A single interrupted `pop` on an empty ring
delivers what no `push` has stored.
-/

import OSNetWorkCode.Pthread.Places
import OSNetWorkCode.RingQueue.Slots

namespace OSNetWorkCode
namespace RingQueue

open Pthread Function

variable {T α : Type*}

/-- `sem_wait` may be interrupted, copies do not throw. -/
def Env.signals : Env := ⟨true, false⟩

section steps

variable [DecidableEq T]

/-- The step of `t` from `s` to `s'` is a `sem_wait` that returns `-1`. -/
def Interrupted (s : State T α) (t : T) (s' : State T α) : Prop :=
  ∃ l x k k', s.th t = .run l ∧ prog (T := T) Env.signals l = .semWait x k (some k') ∧
    s' = s.put t (.run k')

/-- If `t` stood at `Sem::p` in `s`, the semaphore has one permit less in
`s'`. -/
def PermitTaken (s : State T α) (t : T) (s' : State T α) : Prop :=
  ∀ l x k, s.th t = .run l → prog (T := T) Env.signals l = Sem.p Env.signals x k →
    s.sem x = s'.sem x + 1

/-- **`Sem::p` returns with a permit unless it was interrupted.**  The two ways
out of `sem_wait` differ in the semaphore and in nothing else. -/
theorem permitTaken_iff {s s' : State T α} {t : T} (h : Step (prog Env.signals) s t s') :
    PermitTaken s t s' ↔ ¬ Interrupted s t s' := by
  constructor
  · rintro hp ⟨l, x, k, k', hl, hop, rfl⟩
    have hp' := hp l x k hl (by cases l <;> cases hop <;> rfl)
    rw [St.put_sem] at hp'
    omega
  · intro hi l x k hl hop
    have hmakes := h.makes hl
    rw [hop] at hmakes
    rcases hmakes with ⟨v, hx, rfl⟩ | ⟨k', hk', rfl⟩
    · rw [St.put_sem, St.setSem_sem, update_self, hx]
    · rw [← Option.some.inj hk'] at hi ⊢
      exact absurd ⟨l, x, k, k, hl, hop, rfl⟩ hi

/-! ### The slots of a window -/

/-- Slot `i` is that of a position from `lo` up to `hi`. -/
def Occupied (n lo hi i : ℕ) : Prop := ∃ j, lo ≤ j ∧ j < hi ∧ j % n = i

/-- The slot of the next position is occupied as well, once it is stored to.
The others are as they were. -/
theorem occupied_store {n lo hi : ℕ} (h : lo ≤ hi) (i : ℕ) :
    Occupied n lo (hi + 1) i ↔ i = hi % n ∨ Occupied n lo hi i := by
  constructor
  · rintro ⟨j, hlo, hhi, rfl⟩
    rcases Nat.lt_succ_iff_lt_or_eq.1 hhi with hlt | rfl
    · exact .inr ⟨j, hlo, hlt, rfl⟩
    · exact .inl rfl
  · rintro (rfl | ⟨j, hlo, hhi, rfl⟩)
    · exact ⟨hi, h, Nat.lt_succ_self hi, rfl⟩
    · exact ⟨j, hlo, Nat.lt_succ_of_lt hhi, rfl⟩

/-- The slot of the first position is free again, since no other position of a
window of at most `n` has it. -/
theorem occupied_load {n lo hi : ℕ} (h : hi ≤ n + lo) (i : ℕ) :
    Occupied n (lo + 1) hi i ↔ i ≠ lo % n ∧ Occupied n lo hi i := by
  constructor
  · rintro ⟨j, hlo, hhi, rfl⟩
    have hne := mod_ne_of_lt (n := n) (Nat.lt_of_succ_le hlo) (by omega)
    exact ⟨hne.symm, j, Nat.le_of_succ_le hlo, hhi, rfl⟩
  · rintro ⟨hne, j, hlo, hhi, rfl⟩
    have hlt : lo < j := Nat.lt_of_le_of_ne hlo fun heq => hne (by rw [heq])
    exact ⟨j, hlt, hhi, rfl⟩

/-- A slot is marked after a store if it was marked, or is the one stored
to. -/
theorem update_true_iff (w : ℕ → Bool) (a i : ℕ) :
    update w a true i = true ↔ i = a ∨ w i = true := by
  by_cases h : i = a
  · rw [h, update_self]
    simp
  · rw [update_of_ne h]
    simp [h]

/-- A slot is marked after a load if it was marked and is not the one loaded
from. -/
theorem update_false_iff (w : ℕ → Bool) (a i : ℕ) :
    update w a false i = true ↔ i ≠ a ∧ w i = true := by
  by_cases h : i = a
  · rw [h, update_self]
    simp
  · rw [update_of_ne h]
    simp [h]

/-! ### Runs with the slots marked -/

/-- A state, and for each slot whether it was written since it was last
read. -/
structure Marked (T α : Type*) where
  state : State T α
  written : ℕ → Bool

/-- A store marks the slot it is made to, a load unmarks the one it is made
from. -/
def mark (d : Data α) : Pc α → (ℕ → Bool) → ℕ → Bool
  | .pushStore .., w => update w d.pStep true
  | .popLoad _, w => update w d.cStep false
  | _, w => w

/-- The marks after a step of `t`. -/
def Marked.after (m : Marked T α) (t : T) : ℕ → Bool :=
  match m.state.th t with
  | .run l => mark m.state.data l m.written
  | _ => m.written

/-- The runs of a queue of capacity `n` under signals whose steps `ok` admits,
with the slots marked. -/
def marked [Inhabited α] (ok : State T α → T → State T α → Prop) (n : ℕ) :
    System (Marked T α) where
  init m := Init n m.state ∧ m.written = fun _ => false
  step m m' := ∃ t, (Step (prog Env.signals) m.state t m'.state ∨ Wake m.state t m'.state) ∧
    ok m.state t m'.state ∧ m'.written = m.after t

/-- What the permits are for. -/
structure Correct (n : ℕ) (m : Marked T α) : Prop where
  /-- Between `0` and `n` values are stored and not read. -/
  unread : (delivered m.state.events).length ≤ (stored m.state.events).length ∧
    (stored m.state.events).length ≤ (delivered m.state.events).length + n
  /-- A `pop` about to load finds a slot that was written since it was last read. -/
  load : ∀ t todo, m.state.th t = .run (.popLoad todo) → m.written m.state.data.cStep = true
  /-- A `push` about to store overwrites no value that was not read. -/
  store : ∀ t v todo, m.state.th t = .run (.pushStore v todo) →
    m.written m.state.data.pStep = false

/-- **Without interrupts the environment is calm.**  The programs of the two
environments differ only at the waits, and there only in the way out that is
not taken. -/
theorem step_calm {s s' : State T α} {t : T} (h : Step (prog Env.signals) s t s')
    (hi : ¬ Interrupted s t s') : Step (prog Env.calm) s t s' := by
  cases h with
  | @lock l m k hl hop hm => exact .lock hl (by cases l <;> cases hop <;> rfl) hm
  | @unlock l m k hl hop hm => exact .unlock hl (by cases l <;> cases hop <;> rfl) hm
  | @condWait l c => exact c.elim
  | reacquire hl hm => exact .reacquire hl hm
  | @condSignal l c => exact c.elim
  | @condBroadcast l c => exact c.elim
  | @semWait l x k intr v hl hop hx =>
    have hcalm : prog (T := T) Env.calm l = .semWait x k none := by
      cases l <;> cases hop <;> rfl
    exact .semWait hl hcalm hx
  | semIntr hl hop => exact absurd ⟨_, _, _, _, hl, hop, rfl⟩ hi
  | @semPost l x k hl hop => exact .semPost hl (by cases l <;> cases hop <;> rfl)
  | @create l start k u hl hop => cases l <;> cases hop
  | @join l u k l' hl hop => cases l <;> cases hop
  | @act l f i d k ev hl hop hf => exact .act hl (by cases l <;> cases hop <;> rfl) hf

end steps

section reachable

variable [Fintype T] [DecidableEq T] [Inhabited α] {n : ℕ} {m : Marked T α}

/-- The runs none of whose waits is interrupted. -/
def uninterrupted (T α : Type*) [DecidableEq T] [Inhabited α] (n : ℕ) : System (Marked T α) :=
  marked (fun s t s' => ¬ Interrupted s t s') n

omit [Fintype T] in
/-- A run without interrupts is a run of the calm environment, with all its
invariants. -/
theorem calm_of_marked (hm : (uninterrupted T α n).Reachable m) :
    (sys Env.calm n).Reachable m.state := by
  induction hm with
  | init h => exact .init h.1
  | step _ h ih =>
    obtain ⟨t, hst | hw, hi, -⟩ := h
    · exact .step ih ⟨t, .inl (step_calm hst hi)⟩
    · exact .step ih ⟨t, .inr hw⟩

omit [Fintype T] [Inhabited α] in
/-- **A step marks the slot of a store, unmarks that of a load, or does
neither.**  So the marks tell which slots hold an element that was stored and
not yet loaded, whatever the cursors say. -/
theorem after_cases {s' : State T α} {t : T} (h : Step (prog Env.calm) m.state t s') :
    (∃ v todo, m.state.th t = .run (.pushStore v todo) ∧
      s'.events = m.state.events ++ [.stored v] ∧
      m.after t = update m.written m.state.data.pStep true) ∨
    (∃ v todo, m.state.th t = .run (.popLoad todo) ∧
      s'.events = m.state.events ++ [.delivered v] ∧
      m.after t = update m.written m.state.data.cStep false) ∨
    s'.events = m.state.events ∧ m.after t = m.written := by
  cases hl : m.state.th t with
  | run l =>
    have hmakes := h.makes hl
    cases l with
    | pushStore v todo =>
      obtain ⟨i, d, k, ev, hf, rfl⟩ := hmakes
      cases access (T := T) (e := Env.calm) (l := .pushStore v todo) rfl rfl hf with
      | store hlt => exact .inl ⟨v, todo, rfl, by simp, by rw [Marked.after, hl]; rfl⟩
    | popLoad todo =>
      obtain ⟨i, d, k, ev, hf, rfl⟩ := hmakes
      cases access (T := T) (e := Env.calm) (l := .popLoad todo) rfl rfl hf with
      | @load v _ hv => exact .inr (.inl ⟨v, todo, rfl, by simp, by rw [Marked.after, hl]; rfl⟩)
    | pushMod todo =>
      obtain ⟨i, d, k, ev, hf, rfl⟩ := hmakes
      cases access (T := T) (e := Env.calm) (l := .pushMod todo) rfl rfl hf
      exact .inr (.inr ⟨by simp, by rw [Marked.after, hl]; rfl⟩)
    | popMod todo =>
      obtain ⟨i, d, k, ev, hf, rfl⟩ := hmakes
      cases access (T := T) (e := Env.calm) (l := .popMod todo) rfl rfl hf
      exact .inr (.inr ⟨by simp, by rw [Marked.after, hl]; rfl⟩)
    | _ =>
      rcases h.data_cases with ⟨-, hlog⟩ | ⟨l, f, i, d, k, e, hl', hop, -⟩
      · exact .inr (.inr ⟨by rw [St.events, St.events, hlog], by rw [Marked.after, hl]; rfl⟩)
      · rw [hl] at hl'
        cases hl'
        cases hop
  | _ =>
    rcases h.data_cases with ⟨-, hlog⟩ | ⟨l, f, i, d, k, e, hl', -⟩
    · exact .inr (.inr ⟨by rw [St.events, St.events, hlog], by rw [Marked.after, hl]⟩)
    · rw [hl] at hl'
      cases hl'

/-- **The slots marked are those of the unread values.**  The marks are kept by
the stores and loads as they happen; that they agree with the cursors is what
is shown here. -/
theorem written_iff (hm : (uninterrupted T α n).Reachable m) (i : ℕ) : m.written i = true ↔
    Occupied n (delivered m.state.events).length (stored m.state.events).length i := by
  refine hm.invariant (I := fun m => ∀ i, m.written i = true ↔
    Occupied n (delivered m.state.events).length (stored m.state.events).length i) ?_ ?_ i
  · rintro m ⟨hinit, hunmarked⟩ i
    rw [hunmarked, St.events, hinit.log]
    simp [Occupied]
  · rintro m ⟨s', w⟩ hr ih ⟨t, hst | hw, hi, rfl : w = m.after t⟩ i
    · have hs := calm_of_marked hr
      dsimp only at hst hi ⊢
      rcases after_cases (step_calm hst hi) with
        ⟨v, todo, ht, hev, hmark⟩ | ⟨v, todo, ht, hev, hmark⟩ | ⟨hev, hmark⟩
      · obtain ⟨-, hpos⟩ : Shape n m.state.data ∧ m.state.data.pStep = _ % n :=
          (pGuarded hs).inside ht rfl
        rw [hmark, hev, hpos, update_true_iff, ih]
        simp only [stored_append, delivered_append, stored_stored, delivered_stored,
          List.append_nil, List.length_append, List.length_singleton]
        exact (occupied_store (delivered_le hs) i).symm
      · obtain ⟨-, hpos⟩ : Shape n m.state.data ∧ m.state.data.cStep = _ % n :=
          (cGuarded hs).inside ht rfl
        rw [hmark, hev, hpos, update_false_iff, ih]
        simp only [stored_append, delivered_append, stored_delivered, delivered_delivered,
          List.append_nil, List.length_append, List.length_singleton]
        exact (occupied_load (unread_le hs) i).symm
      · rw [hmark, hev]
        exact ih i
    · dsimp only at hw
      cases hw with
      | @spurious c => exact c.elim

/-- **Without interrupted waits the ring is used correctly.**  The three parts
are read off the marks and the permits. -/
theorem correct_of_uninterrupted (hm : (uninterrupted T α n).Reachable m) : Correct n m := by
  have hs := calm_of_marked hm
  have hread := delivered_le hs
  have hroom := unread_le hs
  refine ⟨⟨hread, by omega⟩, fun t todo ht => ?_, fun t v todo ht => ?_⟩
  · obtain ⟨-, hpos⟩ : Shape n m.state.data ∧ m.state.data.cStep = _ % n :=
      (cGuarded hs).inside ht rfl
    exact (written_iff hm _).2 ⟨_, le_rfl, unread_pos_of_popLoad hs ht, hpos.symm⟩
  · obtain ⟨-, hpos⟩ : Shape n m.state.data ∧ m.state.data.pStep = _ % n :=
      (pGuarded hs).inside ht rfl
    have hfree := unread_lt_of_pushStore hs ht
    rw [Bool.eq_false_iff, Ne, written_iff hm]
    rintro ⟨j, hj, hj', hmod⟩
    rw [hpos] at hmod
    exact mod_ne_of_lt hj' (by omega) hmod

/-- **`RingQueue` is correct as long as no `sem_wait` is interrupted.**  For
every capacity, any threads and any interleaving in which waits may be
interrupted: `Sem::p` returns with a permit in exactly the steps that are not
interrupted, and while there was no other step the number of unread values
stays between `0` and `n`, no `pop` delivers a slot that was not written since
it was last read, and no `push` overwrites an unread value. -/
theorem permits_respected (n : ℕ) :
    (∀ (s : State T α) t s', (sys Env.signals n).Reachable s →
      Step (prog Env.signals) s t s' → (PermitTaken s t s' ↔ ¬ Interrupted s t s')) ∧
    ∀ m : Marked T α, (uninterrupted T α n).Reachable m → Correct n m :=
  ⟨fun _ _ _ _ h => permitTaken_iff h, fun _ hm => correct_of_uninterrupted hm⟩

end reachable

/-! ### One interrupted `pop` -/

/-- A run goes on with a step of a schedule, and the marks follow it. -/
theorem marked_next [Fintype T] [DecidableEq T] [Inhabited α] {n : ℕ} {m : Marked T α}
    (hm : (marked (fun _ _ _ => True) n).Reachable m) {t : T} {c : Choice T Bool}
    {s' : State T α} (h : exec (prog Env.signals) m.state t c = some s') :
    (marked (fun _ _ _ => True) n).Reachable ⟨s', m.after t⟩ :=
  .step hm ⟨t, exec_sound h, trivial, rfl⟩

/-- One slot, one thread with a value to pop, and one with nothing to do. -/
def onePop : State (Fin 2) ℕ where
  owner _ := none
  sem := Sem.value 1
  th t := .run (.ready (if t = caller then [.pop] else []))
  data := .new 1
  log := []

/-- **An interrupted `pop` delivers what was never stored.**  The ring is
empty, the wait returns without a permit, the slot it then loads from was not
written, and one value is delivered where none was stored. -/
theorem interrupted_pop : ∃ s s' : State (Fin 2) ℕ, ∃ m m' : Marked (Fin 2) ℕ,
    (sys Env.signals 1).Reachable s ∧ Step (prog Env.signals) s caller s' ∧
      ¬ PermitTaken s caller s' ∧
    (marked (fun _ _ _ => True) 1).Reachable m ∧
      (∃ todo, m.state.th caller = .run (.popLoad todo)) ∧
      m.written m.state.data.cStep = false ∧
    (marked (fun _ _ _ => True) 1).Reachable m' ∧ stored m'.state.events = [] ∧
      delivered m'.state.events = [0] := by
  have hinit : Init 1 onePop := ⟨fun _ => rfl, fun _ => rfl, fun t => ⟨_, rfl⟩, rfl, rfl⟩
  have hm₀ : (marked (fun _ _ _ => True) 1).Reachable (⟨onePop, fun _ => false⟩ : Marked _ _) :=
    .init ⟨hinit, rfl⟩
  have hm₁ := marked_next (t := caller) (c := .interrupted) hm₀ rfl
  have hm₂ := marked_next (t := caller) (c := .go) hm₁ rfl
  have hm₃ := marked_next (t := caller) (c := .input false) hm₂ rfl
  refine ⟨onePop, _, _, _, .init hinit, .semIntr rfl rfl, fun h => ?_, hm₂, ⟨[], rfl⟩, rfl, hm₃,
    rfl, rfl⟩
  have hnone := h _ .dataSem _ rfl rfl
  simp [onePop, Sem.value] at hnone

end RingQueue
end OSNetWorkCode
