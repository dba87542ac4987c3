/-
# What a copy that throws does to `RingQueue`

The element is assigned between lock and unlock.  When the assignment throws,
`push` or `pop` is left at once: its permit was taken and is not posted, its
cursor was advanced and is not reduced, and its lock is a raw one that nobody
gives back (`Throws.left`).  Nothing of this is undone, in no case
(`Throws.not_undone`).

The lock then has an owner that is not inside the section any more, and that
stays so: nobody comes in who could unlock it (`Abandoned.ever`).  Each later
call of that side has a permit to wait for and then waits for the lock, and no
further value passes there (`Shut.ever`, `never_as_if_not_made`).
-/

import OSNetWorkCode.Pthread.Abandoned
import OSNetWorkCode.Pthread.Schedule
import OSNetWorkCode.RingQueue.Permits

namespace OSNetWorkCode
namespace RingQueue

open Pthread Function

variable {T α : Type*}

/-- Copies may throw, `sem_wait` is not interrupted. -/
def Env.throwing : Env := ⟨false, true⟩

/-! ### The two sides of the queue -/

/-- The producers' side and the consumers' side. -/
inductive Side
  | producer
  | consumer

namespace Side

/-- The lock that a call of this side stores or loads under. -/
def lock : Side → Mutex
  | .producer => .pLock
  | .consumer => .cLock

/-- The semaphore that a call of this side takes a permit of. -/
def sem : Side → Sem
  | .producer => .spaceSem
  | .consumer => .dataSem

/-- The cursor that a call of this side advances. -/
def cursor (d : Data α) : Side → ℕ
  | .producer => d.pStep
  | .consumer => d.cStep

/-- The place of the assignment. -/
def Assigns : Side → Pc α → Prop
  | .producer, .pushStore .. => True
  | .consumer, .popLoad _ => True
  | _, _ => False

/-- The values that have passed this side. -/
def passed (ev : List (Event α)) : Side → List α
  | .producer => stored ev
  | .consumer => delivered ev

/-- What passes a side comes behind what has passed it. -/
theorem passed_append (ev more : List (Event α)) (c : Side) :
    c.passed (ev ++ more) = c.passed ev ++ c.passed more := by
  cases c <;> exact List.filterMap_append

/-- An assignment that throws lets no value pass. -/
theorem passed_thrown (c : Side) : c.passed [(.thrown : Event α)] = [] := by
  cases c <;> rfl

end Side

variable [DecidableEq T]

/-- In the step of `t` from `s` to `s'` the assignment of a call of side `c`
throws. -/
structure Throws (e : Env) (c : Side) (s : State T α) (t : T) (s' : State T α) : Prop where
  step : Step (prog e) s t s'
  place : ∃ l, s.th t = .run l ∧ c.Assigns l
  log : s'.log = s.log ++ [(t, .thrown)]

/-- What the call of side `c` had done to the queue in `s` is undone in `s'`:
its permit is back, its lock is free, and cursors and stored values are those
of before. -/
structure AsIfNotMade (c : Side) (s s' : State T α) : Prop where
  sem : s'.sem = update s.sem c.sem (s.sem c.sem + 1)
  owner : s'.owner = update s.owner c.lock none
  data : s'.data = s.data

/-- The lock of side `c` is left behind by `t`: nobody is in its section, where
alone it is unlocked, and the values that pass there stay what they are. -/
structure Shut (c : Side) (t : T) (ev : List α) (s : State T α) : Prop where
  abandoned : Abandoned holds c.lock t s
  passed : c.passed s.events = ev

section steps

variable {e : Env} {c : Side} {s s' : State T α} {t u : T} {l : Pc α}

omit [DecidableEq T] in
/-- **Whether copies throw or not,** the calls own what the annotation says or
more.  A throw leads out of the section with the lock still taken. -/
theorem bounds : Bounds (prog (T := T) (α := α) e) holds where
  unlock {l m k} h := by
    cases l <;> cases h <;> rfl
  condWait {l c} h := c.elim
  create {l start k} h := by
    cases l <;> cases h
  leads {l k} h m hk := by
    by_cases hact : ∃ f, prog (T := T) e l = .act f
    · obtain ⟨f, hop⟩ := hact
      rw [hop] at h ⊢
      obtain ⟨i, d, d', ev, hf⟩ := h
      cases effect hop hf with
      | storeThrows | loadThrows => exact hk.elim
      | done h =>
        cases h
        all_goals exact hk
    · cases l with
      | done => cases h
      | callPush v todo | callPop todo =>
        rw [Sem.p_leads h] at hk
        exact hk.elim
      | pushStore v todo | pushMod todo | popLoad todo | popMod todo => exact absurd ⟨_, rfl⟩ hact
      | pushLock v todo | popLock todo =>
        cases h
        exact .inl hk
      | _ =>
        cases h
        exact hk.elim

/-- Outside a section a thread lets no value pass there: stores are made under
`__p_lock`, and loads under `__c_lock`. -/
theorem passed_step (hst : Step (prog e) s t s') (hout : ¬ (s.th t).Holds holds c.lock) :
    c.passed s'.events = c.passed s.events := by
  rcases hst.data_cases with ⟨-, hlog⟩ | ⟨l, f, i, d, k, ev, hl, hop, hf, rfl⟩
  · rw [St.events, hlog]
    rfl
  · rw [hl] at hout
    suffices hnone : c.passed ev = [] by
      rw [St.put_events, St.record_events, Side.passed_append, hnone, List.append_nil]
    cases effect hop hf with
    | storeThrows | loadThrows => exact c.passed_thrown
    | done h =>
      cases c <;> cases h <;> first | rfl | exact absurd rfl hout

/-- **A throw** leaves permits and locks as they are and the cursor advanced.
The increment in the subscript comes before the assignment, and no handler or
guard runs after it. -/
theorem Throws.left (h : Throws e c s t s') : ∃ todo, s'.th = update s.th t (.run (.ready todo)) ∧
    s'.sem = s.sem ∧ s'.owner = s.owner ∧ s'.data.ringQueue = s.data.ringQueue ∧
    c.cursor s'.data = c.cursor s.data + 1 ∧ c.passed s'.events = c.passed s.events := by
  obtain ⟨hst, ⟨l, hl, hplace⟩, hlog⟩ := h
  have hmakes := hst.makes hl
  have hact : ∃ f, prog (T := T) e l = .act f := by
    cases c <;> cases l <;> first | exact ⟨_, rfl⟩ | exact hplace.elim
  obtain ⟨f, hop⟩ := hact
  rw [hop] at hmakes
  obtain ⟨i, d, k, ev, hf, rfl⟩ := hmakes
  have hev : ev = [.thrown] := by
    have hmap : ev.map (fun x => (t, x)) = [(t, .thrown)] := List.append_cancel_left hlog
    obtain ⟨x, rfl, hx⟩ := List.map_eq_singleton_iff.1 hmap
    rw [(Prod.mk.inj hx).2]
  subst hev
  have hpassed : c.passed (s.events ++ [.thrown]) = c.passed s.events := by
    rw [Side.passed_append, Side.passed_thrown, List.append_nil]
  cases effect hop hf with
  | done h => cases h
  | storeThrows =>
    cases c with
    | producer => exact ⟨_, rfl, rfl, rfl, rfl, rfl, by simpa using hpassed⟩
    | consumer => exact hplace.elim
  | loadThrows =>
    cases c with
    | consumer => exact ⟨_, rfl, rfl, rfl, rfl, rfl, by simpa using hpassed⟩
    | producer => exact hplace.elim

/-- **Nothing is undone:** the permit is not back.  That alone tells the state
from one in which the call had not been made. -/
theorem Throws.not_undone (h : Throws e c s t s') : ¬ AsIfNotMade c s s' := by
  intro hundone
  obtain ⟨todo, -, hsem, -⟩ := h.left
  have hpermit := congrFun hundone.sem c.sem
  rw [hsem, update_self] at hpermit
  exact absurd hpermit (Nat.succ_ne_self _).symm

/-! ### The lock that was left behind -/

/-- Who stands inside a section owns its lock, also where copies throw.  The
converse fails then: who has left by an exception owns it too. -/
theorem keyed [Inhabited α] {n : ℕ} (hs : (sys e n).Reachable s) : Keyed holds s := by
  refine bounds.keyed (fun r (hr : Init n r) u m hm => ?_) hs
  obtain ⟨todo, hu⟩ := hr.th u
  rw [hu] at hm
  exact hm.elim

omit [DecidableEq T] in
/-- The assignment is made inside the section of its side. -/
theorem Side.Assigns.holds (h : c.Assigns l) : holds l c.lock := by
  cases c <;> cases l <;> first | rfl | exact h.elim

/-- **Behind a throw the lock is shut:** the thread that owns it was the one
inside, and it has left. -/
theorem Throws.shut (hkeyed : Keyed holds s) (h : Throws e c s t s') :
    Shut c t (c.passed s.events) s' := by
  obtain ⟨todo, hth, -, howner, -, -, hpassed⟩ := h.left
  obtain ⟨l, hl, hplace⟩ := h.place
  refine ⟨hkeyed.abandoned bounds h.step ?_ ?_ (by rw [howner]), hpassed⟩
  · rw [hl]
    exact hplace.holds
  · rw [hth, update_self]
    exact id

/-- **The lock stays shut for ever,** and what has passed stays what it is,
since values pass inside only. -/
theorem Shut.ever {ev : List α} (h : Shut c t ev s)
    (hs : (system (prog e) fun r => r = s).Reachable s') : Shut c t ev s' := by
  refine ⟨h.abandoned.ever bounds hs, ?_⟩
  refine hs.invariant (I := fun r => c.passed r.events = ev) (fun r hr => ?_) ?_
  · rw [hr]
    exact h.passed
  rintro s₁ s₂ hs₁ h₁ ⟨v, hst | hw⟩
  · have hout := (h.abandoned.ever bounds hs₁).outside v
    exact (passed_step hst hout).trans h₁
  · obtain ⟨-⟩ := hw
    exact h₁

end steps

/-- **A copy that throws never leaves the queue as if the call had not been
made.**  For every capacity, every number of threads with any calls, every
reachable state and every `push` or `pop` whose assignment throws: the permit
the call has taken is not back, its lock is still taken and its cursor is
advanced, only the stored values are those of before.  In every state that
follows the lock is taken still, nobody is where it is unlocked, who comes to
it has no step, and no further value has passed that side of the queue. -/
theorem never_as_if_not_made [Inhabited α] (e : Env) (n : ℕ) {c : Side} {s s' : State T α} {t : T}
    (hs : (sys e n).Reachable s) (h : Throws e c s t s') :
    ¬ AsIfNotMade c s s' ∧
      (s'.sem = s.sem ∧ s'.owner c.lock = some t ∧ c.cursor s'.data = c.cursor s.data + 1 ∧
        s'.data.ringQueue = s.data.ringQueue) ∧
      ∀ s'' : State T α, (system (prog e) fun r => r = s').Reachable s'' →
        Shut c t (c.passed s.events) s'' ∧
          ∀ u l k r, s''.th u = .run l → prog (T := T) e l = .lock c.lock k →
            ¬ Step (prog e) s'' u r := by
  have hshut := h.shut (keyed hs)
  obtain ⟨todo, -, hsem, -, hring, hcursor, -⟩ := h.left
  refine ⟨h.not_undone, ⟨hsem, hshut.abandoned.owner, hcursor, hring⟩, fun s'' hs'' => ?_⟩
  have hever := hshut.ever hs''
  exact ⟨hever, fun u l k r hu hop => hever.abandoned.blocks hu hop⟩

/-! ### A `push` that throws -/

/-- Two threads that push one value each, on a ring of two slots. -/
def twoProducers : State (Fin 2) ℕ where
  owner _ := none
  sem := Sem.value 2
  th t := .run (.ready [.push (if t = caller then 7 else 8)])
  data := .new 2
  log := []

/-- The two producers stand at the beginning of a run. -/
theorem reachable_twoProducers : (sys Env.throwing 2).Reachable twoProducers :=
  .init ⟨fun _ => rfl, fun _ => rfl, fun _ => ⟨_, rfl⟩, rfl, rfl⟩

/-- The store of the first throws, and the other one has come to the lock.  It
has taken the second permit, so that no slot is left for a third. -/
theorem exists_throws : ∃ s s' s'', (sys Env.throwing 2).Reachable s ∧
    Throws Env.throwing .producer s caller s' ∧
    (system (prog Env.throwing) fun r => r = s').Reachable s'' ∧
    s''.th caller = .run (.ready []) ∧ s''.th worker = .run (.pushLock 8 []) := by
  obtain ⟨s, s', s'', hs, hs', hs'', hplace, hlog, hcaller, hworker⟩ :
      ∃ s s' s'', replay (prog Env.throwing) twoProducers [(caller, .go), (caller, .go)] = some s ∧
        exec (prog Env.throwing) s caller (.input true) = some s' ∧
        exec (prog Env.throwing) s' worker .go = some s'' ∧
        s.th caller = .run (.pushStore 7 []) ∧ s'.log = s.log ++ [(caller, .thrown)] ∧
        s''.th caller = .run (.ready []) ∧ s''.th worker = .run (.pushLock 8 []) :=
    ⟨_, _, _, rfl, rfl, rfl, rfl, rfl, rfl, rfl⟩
  have hstep : Step (prog Env.throwing) s caller s' := by
    rcases exec_sound hs' with hst | hwake
    · exact hst
    · obtain ⟨hwait⟩ := hwake
      rw [hplace] at hwait
      cases hwait
  exact ⟨s, s', s'', replay_reachable _ reachable_twoProducers hs,
    ⟨hstep, ⟨_, hplace, trivial⟩, hlog⟩, .step (.init rfl) ⟨worker, exec_sound hs''⟩, hcaller,
    hworker⟩

/-- The lock stays with the thread that has left `push`. -/
theorem never_as_if_not_made_push : ∃ s s' : State (Fin 2) ℕ,
    Throws Env.throwing .producer s caller s' ∧ ¬ AsIfNotMade .producer s s' ∧
      s'.owner .pLock = some caller := by
  obtain ⟨s, s', -, hs, hthrows, -⟩ := exists_throws
  obtain ⟨hnot, ⟨-, howner, -⟩, -⟩ := never_as_if_not_made Env.throwing 2 hs hthrows
  exact ⟨s, s', hthrows, hnot, howner⟩

/-- **A `push` that throws blocks the next one:** a slot is free, but the other
thread waits for a lock that nobody will release, and nobody has a step. -/
theorem thrown_push_blocks : ∃ s s' s'' : State (Fin 2) ℕ, (sys Env.throwing 2).Reachable s ∧
    Throws Env.throwing .producer s caller s' ∧ ¬ AsIfNotMade .producer s s' ∧
    (system (prog Env.throwing) fun r => r = s').Reachable s'' ∧
    s''.th worker = .run (.pushLock 8 []) ∧ Quiescent (prog Env.throwing) s'' := by
  obtain ⟨s, s', s'', hs, hthrows, hs'', hcaller, hworker⟩ := exists_throws
  have hshut := (hthrows.shut (keyed hs)).ever hs''
  have hall : ∀ t : Fin 2, t = caller ∨ t = worker := by decide
  refine ⟨s, s', s'', hs, hthrows, hthrows.not_undone, hs'', hworker, fun t r hst => ?_⟩
  obtain rfl | rfl := hall t
  · exact (Stalled.done hcaller rfl).not_step r hst
  · have hop : prog (T := Fin 2) Env.throwing (.pushLock (8 : ℕ) []) =
        .lock Side.producer.lock (.pushStore 8 []) := rfl
    exact hshut.abandoned.blocks hworker hop hst

end RingQueue
end OSNetWorkCode
