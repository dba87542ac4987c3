/-
# What a workload on a `BlockQueue` comes to

Producers make only pushes and consumers only pops, with any lists of calls:
`P` pushes and `Q` pops in all, on a queue of capacity `n`.  A thread may fall
asleep any number of times, but each time it is woken a call has paid for it
with its one signal (`ranked`), so the threads come to a stand.

There `min P (Q + n)` values are pushed, whatever the schedule.  How many are
popped does depend on it: up to `max 1 (n / 2) - 1` values may be left beside
sleeping consumers, since `push` signals `__Empty` only from half full on.  For
a capacity of three or less none are.
-/

import OSNetWorkCode.BlockQueue.Progress
import OSNetWorkCode.Pthread.Rank
import OSNetWorkCode.Pthread.Todo

namespace OSNetWorkCode
namespace BlockQueue

open Pthread

variable {T S α : Type*}

/-- The calls of a thread that have not changed the queue yet. -/
def Pc.todo : Pc α (List (Call α)) → List (Call α)
  | .pushTest v k | .pushWait v k | .pushBack v k => .push v :: k
  | .popTest k | .popWait k | .popFront k => .pop :: k
  | .ready k | .pushHalf k | .pushSignal k | .popSignal k | .unlock k => k

/-- The call that an event is the effect of. -/
def Event.effect : Event α → Option (Call α)
  | .pushed v => some (.push v)
  | .popped _ => some .pop

/-- The next call is the head of the list, and the others stay in their
order. -/
theorem eq_cons_of_next {k k' : List (Call α)} {c : Call α} (h : List.next? k = some (c, k')) :
    k = c :: k' := by
  cases k with
  | nil => cases h
  | cons c' k =>
    cases h
    rfl

/-- A thread without a next call has made all its calls. -/
theorem eq_nil_of_next {k : List (Call α)} (h : List.next? k = none) : k = [] := by
  cases k with
  | nil => rfl
  | cons c k => cases h

/-- What is left of the calls, and how a call that is no access leads on:
taking the mutex, sleeping and signalling make no call. -/
theorem todo_of_leads {l k : Pc α (List (Call α))}
    (hact : ∀ f, prog (T := T) (S := S) List.next? l ≠ .act f)
    (hk : (prog (T := T) (S := S) List.next? l).Leads k) : k.todo = l.todo := by
  generalize hop : prog (T := T) (S := S) List.next? l = o at hact hk
  cases calls hop with
  | callPush hnext | callPop hnext =>
    cases hk
    exact (eq_cons_of_next hnext).symm
  | done hnext => exact hk.elim
  | pushTest | pushBack | pushHalf | popTest | popFront => exact absurd rfl (hact _)
  | _ =>
    cases hk
    rfl

/-- **A call is made once:** it is still to be made, or has left its event.  A
`pop` that goes back to sleep has its call still to make. -/
theorem ledger_todo (p : Call α → Bool) : Ledger (prog (T := T) (S := S) (α := α) List.next?)
    (fun l => (l.todo.countP p : ℤ)) (fun _ => 0) (fun _ => 0) (made Event.effect p) where
  stay {l k} hk hs := by
    rw [todo_of_leads (fun f hf => by rw [hf] at hs; exact hs) hk]
  semWait {l x k intr} h := by cases calls h
  semIntr {l x k k'} h := by cases calls h
  semPost {l x k} h := by cases calls h
  create {l start k} h := by cases calls h
  act {l f i d d' k evs} h hf := by
    cases access h hf <;> simp [Pc.todo, made, Event.effect, List.countP_cons]

/-- No step brings back a call that was made.  So what kind of calls a thread
has left is settled at the start. -/
theorem todo_subset {l k : Pc α (List (Call α))}
    (hk : (prog (T := T) (S := S) List.next? l).Leads k) : k.todo ⊆ l.todo := by
  by_cases hact : ∃ f, prog (T := T) (S := S) List.next? l = .act f
  · obtain ⟨f, hop⟩ := hact
    rw [hop] at hk
    obtain ⟨i, d, d', ev, hf⟩ := hk
    cases access hop hf with
    | push | front => exact List.subset_cons_self _ _
    | _ => exact List.Subset.refl _
  · rw [todo_of_leads (not_exists.1 hact) hk]
    exact List.Subset.refl _

/-- The values pushed and popped are the effects of the calls, so that counting
calls counts values. -/
theorem countP_effects (ev : List (Event α)) :
    (ev.filterMap Event.effect).countP Call.isPush = (pushed ev).length ∧
      (ev.filterMap Event.effect).countP Call.isPop = (popped ev).length := by
  induction ev with
  | nil => exact ⟨rfl, rfl⟩
  | cons e ev ih =>
    cases e <;> simpa [List.filterMap_cons, List.countP_cons, Event.effect, Call.isPush, Call.isPop,
      pushed, popped] using ih

/-! ### The workload -/

/-- What a call stands for, with `n` threads that its signal may wake. -/
def unit (n : ℕ) : ℕ := 3 * n + 6

/-- How many steps are left from a place on, but for being woken. -/
def Pc.rank (n : ℕ) : Pc α (List (Call α)) → ℕ
  | .ready k => unit n * k.length
  | .pushTest _ k | .popTest k => unit n * k.length + n * 3 + 5
  | .pushWait _ k | .popWait k | .pushBack _ k | .popFront k => unit n * k.length + n * 3 + 4
  | .pushHalf k => unit n * k.length + n * 3 + 3
  | .pushSignal k | .popSignal k => unit n * k.length + n * 3 + 2
  | .unlock k => unit n * k.length + 1

section workload

variable [Fintype T] {n : ℕ} {calls : T → List (Call α)} {s : State T α (List (Call α))}

/-- **Every step brings the calls nearer to their end.**  A thread that was
woken and has to sleep again has lost some way, and the signal of the call that
woke it has paid for that. -/
theorem ranked : Ranked (prog (T := T) (S := S) (α := α) List.next?) (fun _ _ => True)
    (Pc.rank (Fintype.card T)) (fun _ => 0) 3 where
  alone {l k} halone hk := by
    generalize hop : prog (T := T) (S := S) (α := α) List.next? l = o at halone hk
    cases BlockQueue.calls hop with
    | callPush hnext | callPop hnext =>
      cases hk
      rw [eq_cons_of_next hnext]
      simp only [Pc.rank, List.length_cons, Nat.mul_succ, unit]
      omega
    | done hnext => exact hk.elim
    | unlock =>
      cases hk
      simp [Pc.rank]
    | _ => exact halone.elim
  wait {l c m k} h := by
    cases BlockQueue.calls h <;> simp only [Pc.rank] <;> omega
  signal {l c k} h := by
    rcases h with h | h <;> cases BlockQueue.calls h <;> simp only [Pc.rank] <;> omega
  create {l start k} h := by cases BlockQueue.calls h
  act {l f i d d' k ev} h hf _ := by
    cases access h hf <;> simp only [Pc.rank] <;> omega

/-- An empty queue, and threads that have their own calls to make. -/
def Start (n : ℕ) (calls : T → List (Call α)) (s : State T α (List (Call α))) : Prop :=
  Init n s ∧ ∀ t, s.th t = .run (.ready (calls t))

variable [DecidableEq T]

/-- The runs of a workload. -/
def workload (n : ℕ) (calls : T → List (Call α)) : System (State T α (List (Call α))) :=
  system (prog List.next?) (Start n calls)

omit [Fintype T] in
/-- A workload is a special case of any threads with any calls. -/
theorem workload_sys (hs : (workload n calls).Reachable s) : (sys List.next? n).Reachable s := by
  have hrefines : (workload n calls).Refines (sys List.next? n) id :=
    ⟨fun _ h => h.1, fun _ _ _ h => .inr h⟩
  exact hrefines.reachable hs

omit [Fintype T] [DecidableEq T] in
/-- The threads of a workload have their own calls to make: this is what the
general account of producers and consumers asks of `BlockQueue`. -/
theorem own (n : ℕ) (calls : T → List (Call α)) : Workload (prog (S := Empty) List.next?)
    (Start n calls) Pc.todo Event.effect calls where
  starts _ h := ⟨h.1.log, fun t => ⟨_, h.2 t, rfl⟩⟩
  subset := todo_subset
  ledger := ledger_todo

/-- The pushes still to be made and the values pushed are all pushes there are,
and so for the pops. -/
theorem books (hs : (workload n calls).Reachable s) :
    s.toMake Pc.todo Call.isPush + (pushed s.events).length = total calls Call.isPush ∧
      s.toMake Pc.todo Call.isPop + (popped s.events).length = total calls Call.isPop := by
  rw [← (countP_effects s.events).1, ← (countP_effects s.events).2]
  exact ⟨(own n calls).books hs _, (own n calls).books hs _⟩

omit [Fintype T] in
/-- A thread that waits for room has a push to make: it waits inside `push`,
whose value it has still to enter. -/
theorem full_todo (hs : (sys List.next? n).Reachable s) {t : T} (ht : (s.th t).WaitsOn .full) :
    ∃ l v, (s.th t).place = some l ∧ .push v ∈ l.todo := by
  cases hst : s.th t with
  | waiting c m k =>
    rw [hst] at ht
    obtain rfl : c = .full := ht
    obtain ⟨l, hl⟩ := (owned hs).waiting hst
    cases BlockQueue.calls hl with
    | pushWait => exact ⟨_, _, rfl, List.mem_cons_self⟩
  | _ =>
    rw [hst] at ht
    exact ht.elim

omit [Fintype T] in
/-- A thread that waits for a value has a pop to make: it waits inside `pop`,
whose event is still to come. -/
theorem empty_todo (hs : (sys List.next? n).Reachable s) {t : T} (ht : (s.th t).WaitsOn .empty) :
    ∃ l, (s.th t).place = some l ∧ .pop ∈ l.todo := by
  cases hst : s.th t with
  | waiting c m k =>
    rw [hst] at ht
    obtain rfl : c = .empty := ht
    obtain ⟨l, hl⟩ := (owned hs).waiting hst
    cases BlockQueue.calls hl with
    | popWait => exact ⟨_, rfl, List.mem_cons_self⟩
  | _ =>
    rw [hst] at ht
    exact ht.elim

/-! ### The end -/

/-- What the workload comes to. -/
structure Settled (n : ℕ) (calls : T → List (Call α)) (s : State T α (List (Call α))) : Prop where
  th : ∀ t, (s.th t).Asleep ∨ s.th t = .run (.ready [])
  pushed : (pushed s.events).length = min (total calls Call.isPush) (total calls Call.isPop + n)
  popped_le : (popped s.events).length ≤ min (total calls Call.isPush) (total calls Call.isPop)
  short : min (total calls Call.isPush) (total calls Call.isPop) <
    (popped s.events).length + max 1 (n / 2)

/-- **What a stand looks like.**  If pushes sleep the queue is full and all
pops were made; if pops sleep all pushes were made and the queue is below the
threshold.  The numbers follow from the books of the two kinds. -/
theorem settled (hn : 1 ≤ n) (hkind : OneKind calls) (hs : (workload n calls).Reachable s)
    (hq : Quiescent (prog List.next?) s) : Settled n calls s := by
  have hsys := workload_sys hs
  obtain ⟨hcap, hroom, hqueue⟩ := sound hsys
  obtain ⟨hpush, hpop⟩ := books hs
  have hlen := congrArg List.length hqueue
  rw [List.length_append] at hlen
  have hth : ∀ t, (s.th t).Asleep ∨ s.th t = .run (.ready []) := fun t => by
    rcases asleep_of_quiescent hsys hq t with h | ⟨k, hk, hnext⟩
    · exact .inl h
    · exact .inr (by rw [hk, eq_nil_of_next hnext])
  have hdone : ∀ {t}, s.th t = .run (.ready []) → ∀ p : Call α → Bool,
      (s.th t).In fun l => ∀ c ∈ l.todo, p c = false :=
    fun h p => ⟨.ready [], by rw [h]; rfl, nofun⟩
  by_cases hsome : ∃ t, (s.th t).Asleep
  · have hasleep : AllAsleep s := fun t => (hth t).imp_right fun h => ⟨[], h⟩
    obtain ⟨t, ht⟩ := hsome
    rcases one_side_sleeps hn hsys hasleep ⟨t, ht⟩ with ⟨hside, hfull⟩ | ⟨hside, hbelow⟩
    · -- only producers sleep, so the consumers are through
      obtain ⟨l, v, hl, hmem⟩ := full_todo hsys (hside t ht)
      have hpos : 0 < s.toMake Pc.todo Call.isPush := St.toMake_pos hl hmem rfl
      have hzero : s.toMake Pc.todo Call.isPop = 0 := St.toMake_eq_zero fun u => by
        rcases hth u with hu | hu
        · obtain ⟨l, v, hl, hmem⟩ := full_todo hsys (hside u hu)
          exact ⟨l, hl, fun c hc => ((own n calls).alike hkind hs hl hmem hc).2⟩
        · exact hdone hu _
      exact ⟨hth, by omega, by omega, by omega⟩
    · obtain ⟨l, hl, hmem⟩ := empty_todo hsys (hside t ht)
      have hpos : 0 < s.toMake Pc.todo Call.isPop := St.toMake_pos hl hmem rfl
      have hzero : s.toMake Pc.todo Call.isPush = 0 := St.toMake_eq_zero fun u => by
        rcases hth u with hu | hu
        · obtain ⟨l, hl, hmem⟩ := empty_todo hsys (hside u hu)
          exact ⟨l, hl, fun c hc => ((own n calls).alike hkind hs hl hmem hc).1⟩
        · exact hdone hu _
      rw [hcap] at hbelow
      exact ⟨hth, by omega, by omega, by omega⟩
  · have hzero : ∀ p, s.toMake Pc.todo p = 0 := fun p => St.toMake_eq_zero fun t =>
      hdone ((hth t).resolve_left fun h => hsome ⟨t, h⟩) p
    rw [hzero] at hpush hpop
    exact ⟨hth, by omega, by omega, by omega⟩

/-- **What a workload comes to.**  For every capacity from one on and any
threads, each with any list of pushes or any list of pops: from every reachable
state, as soon as nobody wakes up for nothing any more, every run comes to a
state where each thread is through or asleep; there as many values are pushed
as there are pushes to make or, if fewer, pops and slots; and of the pops that
could be made fewer than `max 1 (n / 2)` are not. -/
theorem workload_outcome (hn : 1 ≤ n) (hkind : OneKind calls)
    (hs : (workload n calls).Reachable s) :
    (undisturbed (prog List.next?) (Start n calls)).Inevitable (Settled n calls) s :=
  ranked.inevitable (fun _ _ _ _ _ => trivial) (fun _ => settled hn hkind) hs

end workload

/-- On a queue of the default capacity they always come to an end. -/
theorem workload_outcome_three : ∃ s : State (Fin 2) ℕ (List (Call ℕ)),
    (workload 5 threeForTwo).Reachable s ∧
    (undisturbed (prog List.next?) (Start 5 threeForTwo)).Inevitable (Settled 5 threeForTwo) s := by
  have hinit : (workload 5 threeForTwo).Reachable (⟨fun _ => none, nofun,
      fun t => .run (.ready (threeForTwo t)), ⟨[], 5⟩, []⟩ : State (Fin 2) ℕ (List (Call ℕ))) :=
    .init ⟨⟨fun _ => rfl, fun t => ⟨_, rfl⟩, rfl, rfl⟩, fun _ => rfl⟩
  exact ⟨_, hinit, workload_outcome (by decide) oneKind_threeForTwo hinit⟩

end BlockQueue
end OSNetWorkCode
