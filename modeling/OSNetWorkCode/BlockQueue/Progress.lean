/-
# The two sides of `BlockQueue` never both sleep

`pop` signals `__Full` each time it makes room, so a `push` is never left
asleep next to a free slot (`push_wakeups`): counted as work are the free
slots, and a `push` on its way to the test, or past it, sees to one of them, as
does a `pop` that has not signalled yet.  `push` signals `__Empty` from half
full on, so a `pop` may be left asleep, but only next to fewer than `max 1
(capacity / 2)` values (`pop_wakeups`).  For a capacity of at least one both
cannot be at once (`one_side_sleeps`).

The threads of `ConProd.cc` make calls for ever: `productor` pushes and
`consumer` pops.  With one of each no state of theirs is without a step
(`no_stall`).
-/

import OSNetWorkCode.BlockQueue.Wakeups
import OSNetWorkCode.Pthread.Places

namespace OSNetWorkCode
namespace BlockQueue

open Pthread

variable {T α κ : Type*} {next : κ → Option (Call α × κ)} {n : ℕ}

/-- The threads that will fill a slot, or signal somebody who will. -/
def seesToSlot : Pc α κ → ℕ
  | .popSignal _ | .pushTest .. | .pushBack .. => 1
  | _ => 0

/-- **Every free slot is seen to.**  The debt is the room in the queue: a `pop`
that makes room signals before it ends, and the `push` it wakes goes back to
sleep only where there is none. -/
theorem push_wakeups [DecidableEq T] :
    Wakeups (prog next) (sys (T := T) next n).Reachable .full 0
      (fun d => d.capacity - d.bq.length) seesToSlot where
  signal {l k} h := by
    cases calls h
    exact le_rfl
  wake {l m k} h := by
    cases calls h
    exact le_rfl
  sleep {s t l m k} hs ht h := by
    cases calls h
    have hfull : s.data.bq.length = s.data.capacity := found_of_run hs ht trivial
    omega
  others {l c' m k} h hc := by cases calls h <;> rfl
  stay {l l'} hk hp := by
    generalize hop : prog (T := T) (S := Empty) next l = o at hk hp
    cases calls hop with
    | popSignal => exact absurd rfl hp
    | pushTest | pushBack | pushHalf | popTest | popFront => exact hp.elim
    | _ => exact Nat.zero_le _
  act {s t l f i d l' ev} hs ht h hf := by
    cases access h hf with
    | full hfull =>
      right
      omega
    | room => exact .inl le_rfl
    | push =>
      have hroom : s.data.bq.length < s.data.capacity := found_of_run hs ht trivial
      left
      simp only [seesToSlot, List.length_append, List.length_singleton]
      omega
    | half | belowHalf | empty | nonempty =>
      exact .inl (Nat.add_le_add_left (Nat.zero_le _) _)
    | front hbq =>
      left
      simp only [seesToSlot, hbq, List.length_cons]
      omega

/-- **A `push` sleeps on only next to a full queue,** once everybody else is
asleep or between two calls.  Nobody sees to a slot then, so no slot is
free. -/
theorem push_waits_full [Fintype T] [DecidableEq T] {s : State T α κ}
    (hs : (sys next n).Reachable s) (hasleep : AllAsleep s) (hpush : ∃ t, (s.th t).WaitsOn .full) :
    s.data.bq.length = s.data.capacity := by
  have hcovered : Covered .full 0 (fun d => d.capacity - d.bq.length) seesToSlot s :=
    push_wakeups.debt_le (fun _ hr => owned hr) (fun _ hr => hr)
      (fun s h u hu => by
        obtain ⟨k, hk⟩ := h.th u
        rw [hk] at hu
        exact hu) hs
  have hle : s.data.capacity - s.data.bq.length ≤ 0 + s.tally (Status.awake seesToSlot) :=
    hcovered hpush
  rw [tally_of_allAsleep hasleep fun _ => rfl] at hle
  obtain ⟨hcap, hlen, -⟩ := sound hs
  omega

/-- Whoever sleeps waits on one of the two condition variables, as there are no
others and nobody sleeps elsewhere. -/
theorem waitsOn_of_asleep {st : Status Mutex Cond (Pc α κ)} (h : st.Asleep) :
    st.WaitsOn .full ∨ st.WaitsOn .empty := by
  cases st with
  | waiting c m k =>
    cases c with
    | empty => exact .inr rfl
    | full => exact .inl rfl
  | _ => exact h.elim

/-- **Only one side sleeps.**  Once every unfinished call is asleep, either
only pushes are, next to a full queue, or only pops are, next to a queue below
the threshold.  Both together would make the queue full and below half full. -/
theorem one_side_sleeps [Fintype T] [DecidableEq T] (hn : 1 ≤ n) {s : State T α κ}
    (hs : (sys next n).Reachable s) (hasleep : AllAsleep s) (hsome : ∃ t, (s.th t).Asleep) :
    ((∀ t, (s.th t).Asleep → (s.th t).WaitsOn .full) ∧ s.data.bq.length = s.data.capacity) ∨
      ((∀ t, (s.th t).Asleep → (s.th t).WaitsOn .empty) ∧
        s.data.bq.length < max 1 (s.data.capacity / 2)) := by
  obtain ⟨hcap, -, -⟩ := sound hs
  by_cases hpush : ∃ t, (s.th t).WaitsOn .full
  · have hfull := push_waits_full hs hasleep hpush
    left
    refine ⟨fun t ht => ?_, hfull⟩
    rcases waitsOn_of_asleep ht with h | h
    · exact h
    · -- a `pop` asleep next to a full queue: the capacity would be below its own half
      have hlt := queue_below_threshold hs hasleep ⟨t, h⟩
      omega
  · right
    have hpop : ∀ t, (s.th t).Asleep → (s.th t).WaitsOn .empty := by
      intro t ht
      exact (waitsOn_of_asleep ht).resolve_left fun h => hpush ⟨t, h⟩
    obtain ⟨t, ht⟩ := hsome
    rw [hcap]
    exact ⟨hpop, queue_below_threshold hs hasleep ⟨t, hpop t ht⟩⟩

/-! ### Threads that loop -/

/-- Nothing blocks inside the critical section but the waits themselves, which
give the mutex back. -/
theorem prompt {S : Type*} : Prompt (prog (T := T) (S := S) next) holds where
  lock {l m k} h m' := by cases calls h <;> exact id
  condWait {l c m k} h m' _ := by
    cases m
    cases m'
    rfl
  semWait {l x k intr} h m := by cases calls h
  create {l start k} h m := by cases calls h
  join {l u k} h m := by cases calls h
  act {l f m} h _ d := by
    cases calls h with
    | popFront =>
      refine ⟨(), ?_⟩
      unfold front
      split <;> exact ⟨_, rfl⟩
    | _ => exact ⟨(), _, rfl⟩
  exit {l} h m := by
    cases calls h
    exact id

/-- **In a state without steps every thread sleeps or has made all its calls.**
The mutex is free there, so that nobody is kept by it. -/
theorem asleep_of_quiescent [Fintype T] [DecidableEq T] {s : State T α κ}
    (hs : (sys next n).Reachable s) (hq : Quiescent (prog next) s) (t : T) :
    (s.th t).Asleep ∨ ∃ k, s.th t = .run (.ready k) ∧ next k = none := by
  rcases hq.stalled locks prompt (owned hs) (not_faulty hs) t with
    h | h | ⟨ht, ho⟩ | ⟨ht, ho, hx⟩ | ⟨ht, ho, -⟩ | ⟨ht, ho, -⟩ | ⟨ht, ho, hf⟩
  · refine absurd h (alive (fun s h => ?_) hs)
    obtain ⟨k, hk⟩ := h.th t
    rw [hk]
    nofun
  · exact .inl h
  · cases calls ho with
    | done hk => exact .inr ⟨_, ht, hk⟩
  · cases calls ho
  · cases calls ho
  · cases calls ho
  · obtain ⟨i, o, hio⟩ := prompt.act ho (holds_of_act ho .mtx) s.data
    rw [hf i] at hio
    cases hio

/-- What the threads of `ConProd.cc` do: `productor` pushes one value after the
other, `consumer` pops. -/
inductive Loop (α : Type*)
  | productor (values : ℕ → α)
  | consumer

/-- One round of `while (true)`. -/
def Loop.round : Loop α → Option (Call α × Loop α)
  | .productor values => some (.push (values 0), .productor fun i => values (i + 1))
  | .consumer => some (.pop, .consumer)

/-- A queue of capacity `n`, and threads that loop, at least one of each
kind. -/
structure InitLoops (n : ℕ) (s : State T α (Loop α)) : Prop extends Init n s where
  productor : ∃ t values, s.th t = .run (.ready (.productor values))
  consumer : ∃ t, s.th t = .run (.ready .consumer)

/-- The runs of producers and consumers that loop. -/
def loops {T : Type*} [DecidableEq T] (n : ℕ) : System (State T α (Loop α)) :=
  system (prog Loop.round) (InitLoops n)

/-- The places of a `productor`. -/
def ofProductor : Pc α (Loop α) → Prop
  | .ready k | .pushTest _ k | .pushWait _ k | .pushBack _ k | .pushHalf k | .pushSignal k
  | .unlock k => k ≠ .consumer
  | _ => False

/-- The places of a `consumer`. -/
def ofConsumer : Pc α (Loop α) → Prop
  | .ready k | .popTest k | .popWait k | .popFront k | .popSignal k | .unlock k => k = .consumer
  | _ => False

/-- **A `productor` never pops:** from a place of its own or of `push`, no call
leads it to a place of `pop`. -/
theorem closed_ofProductor {S : Type*} :
    Closed (prog (T := T) (S := S) (α := α) Loop.round) ofProductor := by
  intro l k hl hk
  generalize hop : prog (T := T) (S := S) (α := α) Loop.round l = o at hk
  cases calls hop with
  | @callPush k₀ v k' hnext =>
    cases k₀ with
    | productor values =>
      cases hnext
      cases hk
      nofun
    | consumer => cases hnext
  | @callPop k₀ k' hnext =>
    cases k₀ with
    | productor values => cases hnext
    | consumer => exact absurd rfl hl
  | done h => exact hk.elim
  | pushTest | pushBack | pushHalf =>
    obtain ⟨i, d, d', ev, hf⟩ := hk
    cases access hop hf <;> exact hl
  | popTest | popFront | popSignal => exact hl.elim
  | _ =>
    cases hk
    exact hl

/-- **A `consumer` never pushes:** from a place of its own or of `pop`, no call
leads it to a place of `push`. -/
theorem closed_ofConsumer {S : Type*} :
    Closed (prog (T := T) (S := S) (α := α) Loop.round) ofConsumer := by
  intro l k hl hk
  generalize hop : prog (T := T) (S := S) (α := α) Loop.round l = o at hk
  cases calls hop with
  | @callPush k₀ v k' hnext =>
    obtain rfl : k₀ = .consumer := hl
    cases hnext
  | @callPop k₀ k' hnext =>
    obtain rfl : k₀ = .consumer := hl
    cases hnext
    cases hk
    rfl
  | done h => exact hk.elim
  | popTest | popFront =>
    obtain ⟨i, d, d', ev, hf⟩ := hk
    cases access hop hf <;> exact hl
  | pushTest | pushHalf | pushBack | pushSignal => exact hl.elim
  | _ =>
    cases hk
    exact hl

section loops

variable [DecidableEq T] {s : State T α (Loop α)}

/-- Threads that loop are threads, so that what holds for any callers holds for
them. -/
theorem loops_reachable (hs : (loops n).Reachable s) : (sys Loop.round n).Reachable s := by
  have hrefines : (loops (T := T) (α := α) n).Refines (sys Loop.round n) id :=
    ⟨fun _ h => h.toInit, fun _ _ _ h => .inr h⟩
  exact hrefines.reachable hs

/-- There is a `productor` in every reachable state, wherever it stands. -/
theorem exists_productor (hs : (loops n).Reachable s) : ∃ t, (s.th t).In ofProductor := by
  refine closed_ofProductor.exists_in (fun s h => ?_) hs
  obtain ⟨t, values, ht⟩ := h.productor
  exact ⟨t, .ready (.productor values), by rw [ht]; rfl, nofun⟩

/-- There is a `consumer` in every reachable state, wherever it stands. -/
theorem exists_consumer (hs : (loops n).Reachable s) : ∃ t, (s.th t).In ofConsumer := by
  refine closed_ofConsumer.exists_in (fun s h => ?_) hs
  obtain ⟨t, ht⟩ := h.consumer
  exact ⟨t, .ready .consumer, by rw [ht]; rfl, rfl⟩

/-- A `productor` asleep waits on `__Full`, since that is where `push`
waits. -/
theorem productor_waits (hs : (sys Loop.round n).Reachable s) {t : T}
    (ht : (s.th t).In ofProductor) (hasleep : (s.th t).Asleep) : (s.th t).WaitsOn .full := by
  obtain ⟨l, c, m, k, hst, hop, hin⟩ := (owned hs).asleep_in ht hasleep
  rw [hst]
  cases calls hop with
  | pushWait => rfl
  | popWait => exact hin.elim

/-- A `consumer` asleep waits on `__Empty`, since that is where `pop` waits. -/
theorem consumer_waits (hs : (sys Loop.round n).Reachable s) {t : T}
    (ht : (s.th t).In ofConsumer) (hasleep : (s.th t).Asleep) : (s.th t).WaitsOn .empty := by
  obtain ⟨l, c, m, k, hst, hop, hin⟩ := (owned hs).asleep_in ht hasleep
  rw [hst]
  cases calls hop with
  | pushWait => exact hin.elim
  | popWait => rfl

/-- **Producers and consumers that loop always have a step.**  Without one all
of them would be asleep, some on `__Full` and some on `__Empty`, which
`one_side_sleeps` excludes. -/
theorem exists_step [Fintype T] (hn : 1 ≤ n) (hs : (loops n).Reachable s) :
    ∃ t s', Step (prog Loop.round) s t s' := by
  by_contra hno
  have hq : Quiescent (prog Loop.round) s := fun t s' hst => hno ⟨t, s', hst⟩
  have hr := loops_reachable hs
  have hasleep : ∀ t, (s.th t).Asleep := by
    intro t
    rcases asleep_of_quiescent hr hq t with h | ⟨k, -, hk⟩
    · exact h
    · cases k <;> cases hk
  obtain ⟨t, ht⟩ := exists_productor hs
  obtain ⟨u, hu⟩ := exists_consumer hs
  have hfull := productor_waits hr ht (hasleep t)
  have hempty := consumer_waits hr hu (hasleep u)
  have hall : AllAsleep s := fun v => .inl (hasleep v)
  have heq := push_waits_full hr hall ⟨t, hfull⟩
  have hlt := queue_below_threshold hr hall ⟨u, hempty⟩
  obtain ⟨hcap, -, -⟩ := sound hr
  omega

end loops

/-- **No stall.**  For every capacity of at least one: producers and consumers
that loop, at least one of each, have a step in every reachable state; and for
arbitrary callers, in a reachable state in which some call is unfinished and
all unfinished calls sleep with no wake-up pending, either only pushes sleep
and the queue is full, or only pops sleep and it holds fewer than `max 1
(capacity / 2)` values. -/
theorem no_stall [Fintype T] [DecidableEq T] (next : κ → Option (Call α × κ)) (hn : 1 ≤ n) :
    (∀ s : State T α (Loop α), (loops n).Reachable s → ∃ t s', Step (prog Loop.round) s t s') ∧
    ∀ s : State T α κ, (sys next n).Reachable s → AllAsleep s → (∃ t, (s.th t).Asleep) →
      ((∀ t, (s.th t).Asleep → (s.th t).WaitsOn .full) ∧
        s.data.bq.length = s.data.capacity) ∨
      ((∀ t, (s.th t).Asleep → (s.th t).WaitsOn .empty) ∧
        s.data.bq.length < max 1 (s.data.capacity / 2)) :=
  ⟨fun _ hs => exists_step hn hs, fun _ hs hasleep hsome => one_side_sleeps hn hs hasleep hsome⟩

/-- A `productor` and a `consumer` at a queue of the default capacity. -/
def oneLoopEach : State (Fin 2) ℕ (Loop ℕ) where
  owner _ := none
  sem x := x.elim
  th t := .run (.ready (if t = caller then .productor id else .consumer))
  data := ⟨[], 5⟩
  log := []

/-- The two threads have a step, and a `pop` that sleeps on beside one value is
no stall of a `push`. -/
theorem no_stall_five : (∃ t s', Step (prog Loop.round) oneLoopEach t s') ∧
    ∃ s : State (Fin 2) ℕ (List (Call ℕ)), (sys List.next? 5).Reachable s ∧
      s.data.bq.length < max 1 (s.data.capacity / 2) := by
  have hinit : (loops 5).Reachable oneLoopEach :=
    .init ⟨⟨fun _ => rfl, fun t => ⟨_, rfl⟩, rfl, rfl⟩, ⟨caller, id, rfl⟩, ⟨worker, rfl⟩⟩
  refine ⟨(no_stall List.next? (by decide)).1 oneLoopEach hinit, ?_⟩
  obtain ⟨s, hs, h0, h1, hbq⟩ := popThenPush_reaches
  have hasleep : AllAsleep s := by
    intro t
    fin_cases t
    · left
      show (s.th 0).Asleep
      rw [h0]
      trivial
    · exact .inr ⟨[], h1⟩
  have hsome : (s.th 0).Asleep := by
    rw [h0]
    trivial
  refine ⟨s, hs, ?_⟩
  rcases (no_stall List.next? (n := 5) (by decide)).2 s hs hasleep ⟨0, hsome⟩ with
    ⟨hfull, -⟩ | ⟨-, hlt⟩
  · have hwaits := hfull 0 hsome
    rw [h0] at hwaits
    cases hwaits
  · exact hlt

end BlockQueue
end OSNetWorkCode
