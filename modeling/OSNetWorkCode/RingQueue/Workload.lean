/-
# What a workload of producers and consumers comes to

Producers make only pushes and consumers only pops, as in `testMain.cc`, with
any lists of calls.  Then the outcome does not depend on the schedule: with `P`
pushes and `Q` pops to make on a ring of `n` slots, every run comes to a stand
with `min P (Q + n)` values stored and `min P Q` of them delivered, and with
all calls made just if `Q ≤ P ≤ Q + n`.

A call that has not had its effect is still to be made (`Pc.todo`); it and the
events are on one ledger, so nothing is made twice or left out (`ledger_todo`).
In a state without steps the threads that are not through all wait at one of
the two semaphores, so those of the other kind have made all their calls.
-/

import OSNetWorkCode.Lib.Inevitable
import OSNetWorkCode.Pthread.Todo
import OSNetWorkCode.RingQueue.Progress

namespace OSNetWorkCode
namespace RingQueue

open Pthread

variable {T α : Type*}

/-- The calls of a thread that have not stored or loaded anything yet. -/
def Pc.todo : Pc α → List (Call α)
  | .pushLock v todo | .pushStore v todo => .push v :: todo
  | .popLock todo | .popLoad todo => .pop :: todo
  | .ready todo | .pushMod todo | .pushUnlock todo | .pushPost todo | .popMod todo
  | .popUnlock todo | .popPost todo => todo

/-- The call that an event is the effect of. -/
def Event.effect : Event α → Option (Call α)
  | .stored v => some (.push v)
  | .delivered _ => some .pop
  | .thrown => none

/-- **A call is made once:** it is still to be made, or has left its event.
The ledger counts the calls of a kind in the lists of all threads against those
events. -/
theorem ledger_todo (p : Call α → Bool) : Ledger (prog (T := T) (α := α) Env.calm)
    (fun l => (l.todo.countP p : ℤ)) (fun _ => 0) (fun _ => 0) (made Event.effect p) where
  stay {l k} hk hs := by
    cases l with
    | pushLock v todo | pushUnlock todo | popLock todo | popUnlock todo =>
      cases hk
      rfl
    | done => exact hk.elim
    | _ => exact hs.elim
  semWait {l y k intr} h := by
    cases l with
    | callPush v todo | callPop todo =>
      cases h
      exact (add_zero _).symm
    | _ => cases h
  semIntr {l y k k'} h := by cases l <;> cases h
  semPost {l y k} h := by
    cases l with
    | pushPost todo | popPost todo =>
      cases h
      exact add_zero _
    | _ => cases h
  create {l start k} h := by cases l <;> cases h
  act {l f i d d' k evs} h hf := by
    cases access rfl h hf <;> simp [Pc.todo, made, Event.effect, List.countP_cons]

/-- No step brings back a call that was made: the lists of calls only get
shorter. -/
theorem todo_subset {l k : Pc α} (hk : (prog (T := T) (α := α) Env.calm l).Leads k) :
    k.todo ⊆ l.todo := by
  by_cases hact : ∃ f, prog (T := T) Env.calm l = .act f
  · obtain ⟨f, hop⟩ := hact
    rw [hop] at hk
    obtain ⟨i, d, d', ev, hf⟩ := hk
    cases access rfl hop hf with
    | modP | modC => exact List.Subset.refl _
    | store | load => exact List.subset_cons_self _ _
  · cases l with
    | done => exact hk.elim
    | callPush v todo | callPop todo =>
      rw [Sem.p_leads hk]
      exact List.Subset.refl _
    | pushStore v todo | pushMod todo | popLoad todo | popMod todo => exact absurd ⟨_, rfl⟩ hact
    | _ =>
      cases hk
      exact List.Subset.refl _

/-- The values stored and delivered are the effects of the calls. -/
theorem countP_effects (ev : List (Event α)) :
    (ev.filterMap Event.effect).countP Call.isPush = (stored ev).length ∧
      (ev.filterMap Event.effect).countP Call.isPop = (delivered ev).length := by
  induction ev with
  | nil => exact ⟨rfl, rfl⟩
  | cons e ev ih =>
    cases e <;> simpa [List.filterMap_cons, List.countP_cons, Event.effect, Call.isPush, Call.isPop,
      stored, delivered] using ih

section workload

variable [Fintype T] {n : ℕ} {calls : T → List (Call α)} {s : State T α}

variable [DecidableEq T] [Inhabited α]

/-- The runs in which each thread has its own calls to make. -/
def workload (n : ℕ) (calls : T → List (Call α)) : System (State T α) :=
  system (prog Env.calm) fun s => Init n s ∧ ∀ t, s.th t = .run (.ready (calls t))

omit [Fintype T] in
/-- A workload is one way to use the ring: what holds in all its runs holds
here. -/
theorem workload_sys (hs : (workload n calls).Reachable s) : (sys Env.calm n).Reachable s := by
  have hrefines : (workload n calls).Refines (sys Env.calm n) id :=
    ⟨fun _ h => h.1, fun _ _ _ h => .inr h⟩
  exact hrefines.reachable hs

omit [Fintype T] [DecidableEq T] in
/-- The threads of a workload have their own calls to make. -/
theorem own (n : ℕ) (calls : T → List (Call α)) : Workload (prog Env.calm)
    (fun s => Init n s ∧ ∀ t, s.th t = .run (.ready (calls t))) Pc.todo Event.effect calls where
  starts _ h := ⟨h.1.log, fun t => ⟨_, h.2 t, rfl⟩⟩
  subset := todo_subset
  ledger := ledger_todo

/-- The pushes still to be made and the values stored are all pushes there are,
and so for the pops. -/
theorem books (hs : (workload n calls).Reachable s) :
    s.toMake Pc.todo Call.isPush + (stored s.events).length = total calls Call.isPush ∧
      s.toMake Pc.todo Call.isPop + (delivered s.events).length = total calls Call.isPop := by
  rw [← (countP_effects s.events).1, ← (countP_effects s.events).2]
  exact ⟨(own n calls).books hs _, (own n calls).books hs _⟩

/-! ### The end -/

/-- What the workload comes to, whatever the schedule. -/
structure Settled (n : ℕ) (calls : T → List (Call α)) (s : State T α) : Prop where
  stands : Quiescent (prog Env.calm) s
  stored : (stored s.events).length = min (total calls Call.isPush) (total calls Call.isPop + n)
  delivered : (delivered s.events).length = min (total calls Call.isPush) (total calls Call.isPop)
  finished : (∀ t, Finished s t) ↔ total calls Call.isPop ≤ total calls Call.isPush ∧
    total calls Call.isPush ≤ total calls Call.isPop + n

/-- **Where nobody can take a step the workload is settled.**  The permits
count what was pushed and popped; who is stuck waits for a permit of which
there is none left. -/
theorem settled (hn : 1 ≤ n) (hkind : OneKind calls) (hs : (workload n calls).Reachable s)
    (hq : Quiescent (prog Env.calm) s) : Settled n calls s := by
  have hsys := workload_sys hs
  have hspace := space_permits hsys
  have hdata := data_permits hsys
  rw [held_eq_zero hn hsys hq] at hspace hdata
  obtain ⟨hpush, hpop⟩ := books hs
  have hat : ∀ {t l}, s.th t = .run l → (s.th t).place = some l := fun h => by
    rw [h]
    rfl
  have hdone : ∀ {t}, Finished s t → ∀ p : Call α → Bool,
      (s.th t).In fun l => ∀ c ∈ l.todo, p c = false := fun h p => ⟨_, hat h, nofun⟩
  by_cases hall : ∀ t, Finished s t
  · have hzero : ∀ p, s.toMake Pc.todo p = 0 := fun p =>
      St.toMake_eq_zero fun t => hdone (hall t) p
    rw [hzero] at hpush hpop
    refine ⟨hq, by omega, by omega, iff_of_true hall ?_⟩
    omega
  · obtain ⟨t, ht⟩ := not_forall.1 hall
    rcases (blocked hn hsys hq t).resolve_left ht with ⟨⟨v, todo, hl⟩, hempty⟩ |
      ⟨⟨todo, hl⟩, hempty⟩
    · -- the producers wait, so the consumers are through
      have hpos : 0 < s.toMake Pc.todo Call.isPush :=
        St.toMake_pos (hat hl) List.mem_cons_self rfl
      have hzero : s.toMake Pc.todo Call.isPop = 0 := St.toMake_eq_zero fun u => by
        rcases blocked hn hsys hq u with hu | ⟨⟨w, rest, hu⟩, -⟩ | ⟨-, hdataSem⟩
        · exact hdone hu _
        · exact ⟨_, hat hu, fun c hc =>
            ((own n calls).alike hkind hs (hat hu) List.mem_cons_self hc).2⟩
        · omega
      refine ⟨hq, by omega, by omega, iff_of_false hall ?_⟩
      omega
    · have hpos : 0 < s.toMake Pc.todo Call.isPop :=
        St.toMake_pos (hat hl) List.mem_cons_self rfl
      have hzero : s.toMake Pc.todo Call.isPush = 0 := St.toMake_eq_zero fun u => by
        rcases blocked hn hsys hq u with hu | ⟨-, hspaceSem⟩ | ⟨⟨rest, hu⟩, -⟩
        · exact hdone hu _
        · omega
        · exact ⟨_, hat hu, fun c hc =>
            ((own n calls).alike hkind hs (hat hu) List.mem_cons_self hc).1⟩
      refine ⟨hq, by omega, by omega, iff_of_false hall ?_⟩
      omega

/-- **The outcome of a workload does not depend on the schedule.**  For every
capacity from one on and any threads, each with any list of pushes or any list
of pops: every run comes to a state without steps, and there as many values are
stored and delivered as the numbers of the calls say, and all calls are made
just if there are no more pops than pushes and at most `n` pushes more than
pops. -/
theorem workload_settles (hn : 1 ≤ n) (hkind : OneKind calls) (hs : (workload n calls).Reachable s) :
    (workload n calls).Inevitable (Settled n calls) s := by
  refine hs.inevitable left (fun s s' hr hstep _ => ?_) fun s hr hnot => ?_
  · have hone := countdown (workload_sys hr) hstep
    omega
  · by_contra hnone
    exact hnot (settled hn hkind hr fun t s' hst => hnone ⟨s', t, .inl hst⟩)

end workload

/-- A producer of three values and a consumer of two, on a ring of one slot,
always come to an end with one value left. -/
theorem workload_settles_three : ∃ s : State (Fin 2) ℕ, (workload 1 threeForTwo).Reachable s ∧
    (workload 1 threeForTwo).Inevitable (Settled 1 threeForTwo) s := by
  have hinit : (workload 1 threeForTwo).Reachable (⟨fun _ => none, Sem.value 1,
      fun t => .run (.ready (threeForTwo t)), .new 1, []⟩ : State (Fin 2) ℕ) :=
    .init ⟨⟨fun _ => rfl, fun _ => rfl, fun t => ⟨_, rfl⟩, rfl, rfl⟩, fun _ => rfl⟩
  exact ⟨_, hinit, workload_settles (by decide) oneKind_threeForTwo hinit⟩

end RingQueue
end OSNetWorkCode
