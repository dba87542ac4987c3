/-
# One object for all callers, by double-checked locking

A function that hands out the one object of a class: it tests a shared pointer
without the mutex, and where that is null takes the mutex, tests again, and
only then constructs the object and publishes it; at the end it reads the
pointer once more, without the mutex.  A call is made of these steps, and the
constructor's body is taken step by step as well (`Constructor`); memory is
sequentially consistent and nothing is destroyed.  The environment chooses the
argument of each call.

Two arguments carry the algorithm.  Between taking and giving back the mutex
the construction goes through stages that nobody else can disturb (`monitor`),
so that there is one object and it is published when it is finished.  A thread
about to read the pointer at the end has seen it published, and it stays so
(`learns`).
-/

import OSNetWorkCode.Pthread.Monitor
import OSNetWorkCode.Pthread.Places

namespace OSNetWorkCode
namespace Pthread
namespace DoubleChecked

variable {T A C O : Type*}

/-- What one step of a constructor's body comes to. -/
inductive Body (C O : Type*)
  | next (c : C) (o : O)
  | done
  | undefined

/-- How an object is constructed on an argument: what the member initialisers
leave, where the body begins, and what the body does at each of its places to
the object at an address. -/
structure Constructor (A C O : Type*) where
  init : A → O
  start : A → C
  body : ℕ → C → O → Body C O

/-- What the body, begun on argument `a`, comes past. -/
inductive Constructor.Runs (K : Constructor A C O) (this : ℕ) (a : A) : C → O → Prop
  | start : K.Runs this a (K.start a) (K.init a)
  | body {c o c' o'} (h : K.Runs this a c o) (hb : K.body this c o = .next c' o') :
      K.Runs this a c' o'

/-- The constructor, run on argument `a`, finishes with `o`. -/
def Constructor.Makes (K : Constructor A C O) (this : ℕ) (a : A) (o : O) : Prop :=
  ∃ c, K.Runs this a c o ∧ K.body this c o = .done

/-- The one mutex of the function. -/
inductive Mutex
  | mutex
  deriving DecidableEq

/-- The shared pointer and the objects constructed, by address. -/
structure Data (O : Type*) where
  ptr : Option ℕ
  heap : List O

/-- What is recorded of the constructions and of the calls. -/
inductive Event (A : Type*)
  /-- A call on `arg` allocated the object at `this`. -/
  | began (arg : A) (this : ℕ)
  /-- The constructor of the object at `this` finished. -/
  | finished (this : ℕ)
  /-- A call returned. -/
  | returned (ptr : Option ℕ)

/-- Where a thread stands: between two calls, or in one. -/
inductive Pc (A C : Type*)
  | ready
  | lock (arg : A)
  | test (arg : A)
  | alloc (arg : A)
  | body (this : ℕ) (c : C)
  | publish (this : ℕ)
  | unlock
  | ret

/-- The first test, without the mutex, in a call on `arg`. -/
def firstTest (arg : A) (d : Data O) : Option (Outcome (Data O) (Pc A C) (Event A)) :=
  some (.next d (if d.ptr = none then .lock arg else .ret) [])

/-- The second test, with the mutex. -/
def secondTest (arg : A) (_ : A) (d : Data O) : Option (Outcome (Data O) (Pc A C) (Event A)) :=
  some (.next d (if d.ptr = none then .alloc arg else .unlock) [])

/-- The allocation, with the member initialisers. -/
def alloc (K : Constructor A C O) (arg : A) (_ : A) (d : Data O) :
    Option (Outcome (Data O) (Pc A C) (Event A)) :=
  some (.next { d with heap := d.heap ++ [K.init arg] } (.body d.heap.length (K.start arg))
    [.began arg d.heap.length])

/-- A step of the constructor's body. -/
def construct (K : Constructor A C O) (this : ℕ) (c : C) (_ : A) (d : Data O) :
    Option (Outcome (Data O) (Pc A C) (Event A)) :=
  match d.heap[this]? with
  | some o =>
    match K.body this c o with
    | .next c' o' => some (.next { d with heap := d.heap.set this o' } (.body this c') [])
    | .done => some (.next d (.publish this) [.finished this])
    | .undefined => some .undefined
  | none => some .undefined

/-- The pointer is set. -/
def publish (this : ℕ) (_ : A) (d : Data O) : Option (Outcome (Data O) (Pc A C) (Event A)) :=
  some (.next { d with ptr := some this } .unlock [])

/-- The last read of the pointer, without the mutex. -/
def ret (_ : A) (d : Data O) : Option (Outcome (Data O) (Pc A C) (Event A)) :=
  some (.next d .ready [.returned d.ptr])

/-- The function, call by call, over and over. -/
def prog (K : Constructor A C O) :
    Pc A C → Op T Mutex Empty Empty (Data O) (Pc A C) A (Event A)
  | .ready => .act firstTest
  | .lock arg => .lock .mutex (.test arg)
  | .test arg => .act (secondTest arg)
  | .alloc arg => .act (alloc K arg)
  | .body this c => .act (construct K this c)
  | .publish this => .act (publish this)
  | .unlock => .unlock .mutex .ret
  | .ret => .act ret

/-- States of the threads that call the function. -/
abbrev State (T A C O : Type*) := St T Mutex Empty Empty (Data O) (Pc A C) (Event A)

/-- Nobody has called the function yet. -/
structure Init (s : State T A C O) : Prop where
  owner : ∀ m, s.owner m = none
  th : ∀ t, s.th t = .run .ready
  data : s.data = ⟨none, []⟩
  log : s.log = []

/-- The runs of any threads calling the function any number of times. -/
def sys [DecidableEq T] (K : Constructor A C O) : System (State T A C O) :=
  system (prog K) Init

/-- The allocations, with the argument of the call. -/
def began (ev : List (Event A)) : List (A × ℕ) :=
  ev.filterMap fun | .began a p => some (a, p) | _ => none

/-- The constructors that finished. -/
def finished (ev : List (Event A)) : List ℕ :=
  ev.filterMap fun | .finished p => some p | _ => none

/-- What the calls returned. -/
def returned (ev : List (Event A)) : List (Option ℕ) :=
  ev.filterMap fun | .returned q => some q | _ => none

/-! The three projections of the events, on what is added to them and on single
events. -/

section simp

variable (ev ev' : List (Event A)) (a : A) (p : ℕ) (q : Option ℕ)

@[simp] theorem began_append : began (ev ++ ev') = began ev ++ began ev' :=
  List.filterMap_append ..

@[simp] theorem finished_append : finished (ev ++ ev') = finished ev ++ finished ev' :=
  List.filterMap_append ..

@[simp] theorem returned_append : returned (ev ++ ev') = returned ev ++ returned ev' :=
  List.filterMap_append ..

@[simp] theorem began_nil : began ([] : List (Event A)) = [] := rfl
@[simp] theorem finished_nil : finished ([] : List (Event A)) = [] := rfl
@[simp] theorem returned_nil : returned ([] : List (Event A)) = [] := rfl
@[simp] theorem began_began : began [.began a p] = [(a, p)] := rfl
@[simp] theorem began_finished : began [(.finished p : Event A)] = [] := rfl
@[simp] theorem began_returned : began [(.returned q : Event A)] = [] := rfl
@[simp] theorem finished_began : finished [.began a p] = [] := rfl
@[simp] theorem finished_finished : finished [(.finished p : Event A)] = [p] := rfl
@[simp] theorem finished_returned : finished [(.returned q : Event A)] = [] := rfl
@[simp] theorem returned_began : returned [.began a p] = [] := rfl
@[simp] theorem returned_finished : returned [(.finished p : Event A)] = [] := rfl
@[simp] theorem returned_returned : returned [(.returned q : Event A)] = [q] := rfl

/-- A constructor is among those finished if its end was recorded. -/
theorem mem_finished {ev : List (Event A)} {p : ℕ} : p ∈ finished ev ↔ .finished p ∈ ev := by
  unfold finished
  rw [List.mem_filterMap]
  constructor
  · rintro ⟨e, he, hp⟩
    cases e <;> cases hp
    exact he
  · intro h
    exact ⟨_, h, rfl⟩

end simp

/-! ### What each access does -/

/-- The accesses, by the place they are made at: what they leave, where they go
on and what they record. -/
inductive Access (K : Constructor A C O) (i : A) (d : Data O) :
    Pc A C → Data O → Pc A C → List (Event A) → Prop
  | found (hptr : d.ptr ≠ none) : Access K i d .ready d .ret []
  | missing (hptr : d.ptr = none) : Access K i d .ready d (.lock i) []
  | foundInside {arg} (hptr : d.ptr ≠ none) : Access K i d (.test arg) d .unlock []
  | missingInside {arg} (hptr : d.ptr = none) : Access K i d (.test arg) d (.alloc arg) []
  | alloc {arg} : Access K i d (.alloc arg) { d with heap := d.heap ++ [K.init arg] }
      (.body d.heap.length (K.start arg)) [.began arg d.heap.length]
  | body {this c o c' o'} (ho : d.heap[this]? = some o) (hbody : K.body this c o = .next c' o') :
      Access K i d (.body this c) { d with heap := d.heap.set this o' } (.body this c') []
  | done {this c o} (ho : d.heap[this]? = some o) (hbody : K.body this c o = .done) :
      Access K i d (.body this c) d (.publish this) [.finished this]
  | publish {this} : Access K i d (.publish this) { d with ptr := some this } .unlock []
  | ret : Access K i d .ret d .ready [.returned d.ptr]

/-- **Every access is one of these.**  So an access is inverted once, and what
it keeps is shown rule by rule. -/
theorem access {K : Constructor A C O} {l k : Pc A C} {f} {i : A} {d d' : Data O}
    {e : List (Event A)} (hop : prog (T := T) K l = .act f) (hf : f i d = some (.next d' k e)) :
    Access K i d l d' k e := by
  cases l with
  | ready =>
    cases hop
    obtain ⟨rfl, rfl, rfl⟩ := Outcome.next.inj (Option.some.inj hf)
    split_ifs with hptr
    · exact .missing hptr
    · exact .found hptr
  | lock arg | unlock => cases hop
  | test arg =>
    cases hop
    obtain ⟨rfl, rfl, rfl⟩ := Outcome.next.inj (Option.some.inj hf)
    split_ifs with hptr
    · exact .missingInside hptr
    · exact .foundInside hptr
  | alloc arg =>
    cases hop
    obtain ⟨rfl, rfl, rfl⟩ := Outcome.next.inj (Option.some.inj hf)
    exact .alloc
  | body this c =>
    cases hop
    unfold construct at hf
    split at hf
    · rename_i o ho
      split at hf
      · rename_i c' o' hbody
        obtain ⟨rfl, rfl, rfl⟩ := Outcome.next.inj (Option.some.inj hf)
        exact .body ho hbody
      · rename_i hbody
        obtain ⟨rfl, rfl, rfl⟩ := Outcome.next.inj (Option.some.inj hf)
        exact .done ho hbody
      · cases hf
    · cases hf
  | publish this =>
    cases hop
    obtain ⟨rfl, rfl, rfl⟩ := Outcome.next.inj (Option.some.inj hf)
    exact .publish
  | ret =>
    cases hop
    obtain ⟨rfl, rfl, rfl⟩ := Outcome.next.inj (Option.some.inj hf)
    exact .ret

/-! ### The stages of the construction -/

/-- Nothing was constructed. -/
def Nothing (d : Data O) (ev : List (Event A)) : Prop :=
  d = ⟨none, []⟩ ∧ began ev = [] ∧ finished ev = []

/-- The body of the one object's constructor stands at `c`. -/
def UnderWay (K : Constructor A C O) (c : C) (d : Data O) (ev : List (Event A)) : Prop :=
  ∃ a o, K.Runs 0 a c o ∧ d = ⟨none, [o]⟩ ∧ began ev = [(a, 0)] ∧ finished ev = []

/-- The one object is finished, and the pointer is `ptr`. -/
def Finished (K : Constructor A C O) (ptr : Option ℕ) (d : Data O) (ev : List (Event A)) : Prop :=
  ∃ a o, K.Makes 0 a o ∧ d = ⟨ptr, [o]⟩ ∧ began ev = [(a, 0)] ∧ finished ev = [0]

/-- What a thread finds when it takes the mutex. -/
def free (K : Constructor A C O) (d : Data O) (ev : List (Event A)) : Prop :=
  Nothing d ev ∨ Finished K (some 0) d ev

/-- What holds where a thread stands inside the critical section. -/
def inside (K : Constructor A C O) : Pc A C → Data O → List (Event A) → Prop
  | .test _ => free K
  | .alloc _ => Nothing
  | .body this c => fun d ev => this = 0 ∧ UnderWay K c d ev
  | .publish this => fun d ev => this = 0 ∧ Finished K none d ev
  | .unlock => Finished K (some 0)
  | _ => fun _ _ => True

/-- Inside the critical section. -/
def holds (l : Pc A C) (_ : Mutex) : Prop :=
  match l with
  | .test _ | .alloc _ | .body .. | .publish _ | .unlock => True
  | _ => False

section stages

variable {K : Constructor A C O} {d : Data O} {ev : List (Event A)}

/-- A call that returns leaves every stage: it has no part in a
construction. -/
theorem free_returned (h : free K d ev) (q : Option ℕ) : free K d (ev ++ [.returned q]) := by
  rcases h with ⟨hd, hb, hf⟩ | ⟨a, o, hm, hd, hb, hf⟩
  · exact .inl ⟨hd, by simpa using hb, by simpa using hf⟩
  · exact .inr ⟨a, o, hm, hd, by simpa using hb, by simpa using hf⟩

/-- The same for a thread inside the critical section, while others return from
their calls. -/
theorem inside_returned {l : Pc A C} (h : inside K l d ev) (q : Option ℕ) :
    inside K l d (ev ++ [.returned q]) := by
  cases l with
  | test arg => exact free_returned h q
  | alloc arg =>
    obtain ⟨hd, hb, hf⟩ := h
    exact ⟨hd, by simpa using hb, by simpa using hf⟩
  | body this c =>
    obtain ⟨rfl, a, o, hr, hd, hb, hf⟩ := h
    exact ⟨rfl, a, o, hr, hd, by simpa using hb, by simpa using hf⟩
  | publish this =>
    obtain ⟨rfl, a, o, hm, hd, hb, hf⟩ := h
    exact ⟨rfl, a, o, hm, hd, by simpa using hb, by simpa using hf⟩
  | unlock =>
    obtain ⟨a, o, hm, hd, hb, hf⟩ := h
    exact ⟨a, o, hm, hd, by simpa using hb, by simpa using hf⟩
  | _ => trivial

/-- An access outside the critical section leaves the data, and records at most
a return.  So the tests and the last read, which take no mutex, disturb nobody
inside. -/
theorem Access.outside {l k : Pc A C} {i : A} {d' : Data O} {e : List (Event A)}
    (h : Access K i d l d' k e) (hl : ¬ holds l .mutex) :
    d' = d ∧ (e = [] ∨ ∃ q, e = [.returned q]) := by
  cases h with
  | found | missing => exact ⟨rfl, .inl rfl⟩
  | ret => exact ⟨rfl, .inr ⟨_, rfl⟩⟩
  | foundInside | missingInside | alloc | body | done | publish => exact absurd trivial hl

/-- **An access inside the critical section goes from stage to stage:** from
nothing over the body of the constructor to the finished object, and then to
the published one. -/
theorem Access.inside {l k : Pc A C} {i : A} {d' : Data O} {e : List (Event A)}
    (ha : Access K i d l d' k e) (hl : holds l .mutex) (h : DoubleChecked.inside K l d ev) :
    DoubleChecked.inside K k d' (ev ++ e) := by
  cases ha with
  | foundInside hptr =>
    rw [List.append_nil]
    rcases h with ⟨hd, -⟩ | hmade
    · exact absurd (by rw [hd]) hptr
    · exact hmade
  | missingInside hptr =>
    rw [List.append_nil]
    rcases h with hnothing | ⟨a, o, -, hd, -⟩
    · exact hnothing
    · rw [hd] at hptr
      cases hptr
  | @alloc arg =>
    obtain ⟨rfl, hb, hf⟩ := h
    exact ⟨rfl, arg, K.init arg, .start, rfl, by simp [hb], by simp [hf]⟩
  | @body this c o' c' o'' ho hbody =>
    obtain ⟨rfl, a, o, hr, rfl, hb, hf⟩ := h
    obtain rfl : o = o' := by simpa using ho
    exact ⟨rfl, a, o'', hr.body hbody, rfl, by simpa using hb, by simpa using hf⟩
  | @done this c o' ho hbody =>
    obtain ⟨rfl, a, o, hr, rfl, hb, hf⟩ := h
    obtain rfl : o = o' := by simpa using ho
    exact ⟨rfl, a, o, ⟨c, hr, hbody⟩, rfl, by simp [hb], by simp [hf]⟩
  | publish =>
    obtain ⟨rfl, a, o, hm, rfl, hb, hf⟩ := h
    exact ⟨a, o, hm, rfl, by simpa using hb, by simpa using hf⟩
  | found | missing | ret => exact hl.elim

/-- Only `publish` sets the pointer, and nothing takes it back.  So who finds
it set may use it without the lock. -/
theorem Access.ptr {l k : Pc A C} {i : A} {d' : Data O} {e : List (Event A)}
    (h : Access K i d l d' k e) (hset : d.ptr ≠ none) : d'.ptr ≠ none := by
  cases h with
  | publish => exact nofun
  | _ => exact hset

end stages

/-! ### The algorithm -/

section reachable

variable [DecidableEq T] {K : Constructor A C O} {s : State T A C O}

omit [DecidableEq T] in
/-- The places from the second test to giving back the mutex are those that
hold it.  The first test is made without it, which is what the second one is
for. -/
theorem locks (K : Constructor A C O) : Locks (prog (T := T) K) holds where
  lock {l m k} hop := by cases l <;> first | exact id | cases hop
  unlock {l m k} hop := by cases l <;> first | exact trivial | cases hop
  condWait {l c m k} hop := by cases l <;> cases hop
  create {l start k} hop := by cases l <;> cases hop
  leads {l k} hk m := by
    cases m
    generalize hop : prog (T := T) K l = op at hk ⊢
    cases op with
    | act f =>
      obtain ⟨i, d, d', ev, hf⟩ := hk
      cases access hop hf <;> rfl
    | lock m k' | unlock m k' =>
      obtain rfl := hk
      cases l <;> cases hop
      simp [Op.held, holds]
    | _ => cases l <;> cases hop

omit [DecidableEq T] in
/-- **The stages are guarded by the mutex.**  Who takes it finds that nothing
was constructed or that the object is published, and leaves it so. -/
theorem monitor (K : Constructor A C O) :
    Monitor (prog (T := T) K) holds .mutex (free K) (inside K) where
  acquire {l k d ev} hop h := by
    cases l <;> cases hop
    exact h
  release {l k d ev} hop h := by
    cases l <;> cases hop
    exact .inr h
  sleep {l c k d ev} hop := by cases l <;> cases hop
  wake {l c k d ev} hop := by cases l <;> cases hop
  nested {l c m k} hop := by cases l <;> cases hop
  stay {l k d ev} _ hk ht := by
    cases l with
    | lock arg | unlock => exact absurd rfl ht
    | _ => exact absurd trivial ht
  act hop hl hf h := (access hop hf).inside hl h
  others_free hop hl hf h := by
    obtain ⟨rfl, rfl | ⟨q, rfl⟩⟩ := (access hop hf).outside hl
    · rwa [List.append_nil]
    · exact free_returned h q
  others_inside hop hl hf _ h := by
    obtain ⟨rfl, rfl | ⟨q, rfl⟩⟩ := (access hop hf).outside hl
    · rwa [List.append_nil]
    · exact inside_returned h q

omit [DecidableEq T] in
/-- **Who reaches the end of a call has seen the pointer set,** by one of the
two tests or by setting it. -/
theorem learns (K : Constructor A C O) :
    Learns (prog (T := T) K) (fun l => l = .unlock ∨ l = .ret) (fun d => d.ptr ≠ none) where
  stay {l k} hact hk hend := by
    cases l with
    | lock arg =>
      obtain rfl := hk
      rcases hend with h | h <;> cases h
    | unlock => exact .inl rfl
    | _ => exact absurd rfl (hact _)
  create {l start k} hop := by cases l <;> cases hop
  act {l f i d d' k e} hop hf hend := by
    cases access hop hf with
    | found hptr => exact .inr hptr
    | foundInside hptr => exact .inr hptr
    | publish => exact .inr nofun
    | _ => rcases hend with h | h <;> cases h
  stable hop hf hset := (access hop hf).ptr hset

/-- Who owns the mutex stands inside the critical section, in every reachable
state. -/
theorem owned (hs : (sys K).Reachable s) : Owned (prog K) holds s :=
  (locks K).owned (fun s h => ⟨fun m t => by simp [h.owner, h.th, Status.Holds, holds],
    fun t => by rw [h.th]; exact trivial⟩) hs

/-- The stage fits the place of the thread inside, and where nobody is inside
it is the first or the last. -/
theorem guarded (hs : (sys K).Reachable s) : Guarded holds .mutex (free K) (inside K) s := by
  refine (monitor K).inv (locks K) (fun s h => owned (.init h)) (fun s h => ?_) hs
  refine ⟨fun _ => .inl ⟨h.data, ?_, ?_⟩, fun {t l} hl hin => ?_⟩
  · simp [St.events, h.log]
  · simp [St.events, h.log]
  · rw [h.th] at hl
    cases hl
    exact hin.elim

/-- **Some stage is the present one,** whoever is inside.  There is at most one
object in any of them. -/
theorem stage (hs : (sys K).Reachable s) : Nothing s.data s.events ∨
    (∃ c, UnderWay K c s.data s.events) ∨ Finished K none s.data s.events ∨
      Finished K (some 0) s.data s.events := by
  have hguarded := guarded hs
  have hown := owned hs
  cases howner : s.owner .mutex with
  | none =>
    rcases hguarded.free howner with h | h
    · exact .inl h
    · exact .inr (.inr (.inr h))
  | some t =>
    have hholds := (hown.owner .mutex t).1 howner
    cases hst : s.th t with
    | unborn =>
      rw [hst] at hholds
      exact hholds.elim
    | run l =>
      rw [hst] at hholds
      have hin := hguarded.inside hst hholds
      cases l with
      | test arg =>
        rcases hin with h | h
        · exact .inl h
        · exact .inr (.inr (.inr h))
      | alloc arg => exact .inl hin
      | body this c => exact .inr (.inl ⟨c, hin.2⟩)
      | publish this => exact .inr (.inr (.inl hin.2))
      | unlock => exact .inr (.inr (.inr hin))
      | ready | lock arg | ret => exact hholds.elim
    | waiting c m k => cases c
    | woken m k =>
      obtain ⟨l, c, -⟩ := hown.woken hst
      cases c

/-- A thread about to return finds the one object published: it has seen the
pointer set, and only the last stage has it set. -/
theorem published (hs : (sys K).Reachable s) {t : T} (ht : s.th t = .run .ret) :
    Finished K (some 0) s.data s.events := by
  have hptr : s.data.ptr ≠ none := by
    refine (learns K).known (fun s t h => ?_) hs t ⟨.ret, by rw [ht]; rfl, .inr rfl⟩
    rintro ⟨l, hplace, hl⟩
    rw [h.th] at hplace
    cases hplace
    rcases hl with hl | hl <;> cases hl
  rcases stage hs with ⟨hd, -⟩ | ⟨c, a, o, -, hd, -⟩ | ⟨a, o, -, hd, -⟩ | h
  · exact absurd (by rw [hd]) hptr
  · exact absurd (by rw [hd]) hptr
  · exact absurd (by rw [hd]) hptr
  · exact h

/-- A constructor finishes before a call returns: each return recorded is of
the one object, and the end of its constructor is recorded before. -/
def Timely (ev : List (Event A)) : Prop :=
  ∀ (n : ℕ) q, ev[n]? = some (Event.returned q) →
    q = some 0 ∧ ∃ m < n, ev[m]? = some (Event.finished 0)

/-- **Every call returns the one object,** and its constructor had finished
before.  Each return is recorded when the object is published already, and its
constructor's end is recorded before that. -/
theorem timely (hs : (sys K).Reachable s) : Timely s.events := by
  refine data_invariant (R := (sys K).Reachable) (J := fun _ ev => Timely ev)
    (fun _ h => h) (fun s h => ?_) ?_ hs
  · simp [Timely, St.events, h.log]
  · intro s t l f i d k e hr hl hop hf hJ n q hn
    rcases Nat.lt_or_ge n s.events.length with hlt | hge
    · rw [List.getElem?_append_left hlt] at hn
      obtain ⟨hq, m, hm, hfin⟩ := hJ n q hn
      exact ⟨hq, m, hm, by rw [List.getElem?_append_left (hm.trans hlt), hfin]⟩
    · -- the return recorded by this very access
      rw [List.getElem?_append_right hge] at hn
      cases access hop hf with
      | ret =>
        obtain ⟨a, o, -, hd, -, hfin⟩ := published hr hl
        have hmem : Event.finished 0 ∈ s.events := mem_finished.1 (by rw [hfin]; exact .head _)
        obtain ⟨m, hm⟩ := List.getElem?_of_mem hmem
        obtain ⟨hlt, -⟩ := List.getElem?_eq_some_iff.1 hm
        refine ⟨?_, m, by omega, by rw [List.getElem?_append_left hlt, hm]⟩
        simp only [List.getElem?_singleton, Option.ite_none_right_eq_some, Option.some.injEq,
          Event.returned.injEq] at hn
        rw [← hn.2, hd]
      | alloc | done => simp [List.getElem?_singleton] at hn
      | found | missing | foundInside | missingInside | body | publish => cases hn

/-- **Only the constructor's body can be undefined.**  The accesses of the
function itself are all defined; a body that fails does so on the one object,
on the argument of the call that constructs. -/
theorem faulty (hs : (sys K).Reachable s) (hfault : Faulty (prog K) s) :
    ∃ a c o, began s.events = [(a, 0)] ∧ K.Runs 0 a c o ∧ K.body 0 c o = .undefined := by
  obtain ⟨t, l, f, i, hl, hop, hf⟩ := hfault
  cases l with
  | body this c =>
    cases hop
    obtain ⟨rfl, a, o, hr, hd, hb, -⟩ := (guarded hs).inside hl trivial
    refine ⟨a, c, o, hb, hr, ?_⟩
    rw [construct, hd] at hf
    revert hf
    cases hbody : K.body 0 c o with
    | undefined => intro _; rfl
    | next c' o' => simp [hbody]
    | done => simp [hbody]
  | ready | test arg | alloc arg | publish this | ret =>
    cases hop
    cases hf
  | lock arg | unlock => cases hop

/-- One object for all callers. -/
structure Unique (K : Constructor A C O) (s : State T A C O) : Prop where
  /-- At most one construction is ever begun. -/
  constructed : (began s.events).length ≤ 1
  heap : s.data.heap.length = (began s.events).length
  same : ∀ q ∈ returned s.events, ∀ q' ∈ returned s.events, q = q'
  /-- A call returns a pointer to an object whose constructor has finished by then. -/
  timely : ∀ (n : ℕ) q, s.events[n]? = some (Event.returned q) →
    ∃ this, q = some this ∧ ∃ m < n, s.events[m]? = some (Event.finished this)
  /-- What a finished constructor made on the argument of its call is still there. -/
  made : ∀ a this, (a, this) ∈ began s.events → this ∈ finished s.events →
    ∃ o, s.data.heap[this]? = some o ∧ K.Makes this a o

omit [DecidableEq T] in
/-- What is among the results of calls was recorded when a call returned. -/
theorem mem_returned {ev : List (Event A)} {q : Option ℕ} (h : q ∈ returned ev) :
    Event.returned q ∈ ev := by
  obtain ⟨e, he, hq⟩ := List.mem_filterMap.1 h
  cases e <;> cases hq
  exact he

/-- **Double-checked locking hands out one object,** after its constructor.
That a second test follows the first is what makes the count come out right,
and it is made inside. -/
theorem unique (hs : (sys K).Reachable s) : Unique K s := by
  have htimely := timely hs
  have hzero : ∀ q ∈ returned s.events, q = some 0 := fun q hq => by
    obtain ⟨n, hn⟩ := List.getElem?_of_mem (mem_returned hq)
    exact (htimely n q hn).1
  have hstage := stage hs
  constructor
  · rcases hstage with ⟨-, hb, -⟩ | ⟨c, a, o, -, -, hb, -⟩ | ⟨a, o, -, -, hb, -⟩ |
      ⟨a, o, -, -, hb, -⟩ <;> simp [hb]
  · rcases hstage with ⟨hd, hb, -⟩ | ⟨c, a, o, -, hd, hb, -⟩ | ⟨a, o, -, hd, hb, -⟩ |
      ⟨a, o, -, hd, hb, -⟩ <;> simp [hd, hb]
  · intro q hq q' hq'
    rw [hzero q hq, hzero q' hq']
  · intro n q hn
    obtain ⟨hq, hfin⟩ := htimely n q hn
    exact ⟨0, hq, hfin⟩
  · intro a this hbegan hfinished
    rcases hstage with ⟨-, -, hf⟩ | ⟨c, a', o, -, -, -, hf⟩ | ⟨a', o, hm, hd, hb, -⟩ |
      ⟨a', o, hm, hd, hb, -⟩
    · rw [hf] at hfinished
      cases hfinished
    · rw [hf] at hfinished
      cases hfinished
    · rw [hb, List.mem_singleton] at hbegan
      cases hbegan
      exact ⟨o, by rw [hd]; rfl, hm⟩
    · rw [hb, List.mem_singleton] at hbegan
      cases hbegan
      exact ⟨o, by rw [hd]; rfl, hm⟩

end reachable

end DoubleChecked
end Pthread
end OSNetWorkCode
