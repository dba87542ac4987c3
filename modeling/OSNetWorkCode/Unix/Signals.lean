/-
# Signals

A process and the signals that are sent to it, as far as the standard signals 1
to 31 go.  A signal that is sent is pending until it is delivered, once however
often it was sent meanwhile; a blocked one is not delivered.  What is done on
delivery is up to `sigaction`: a handler is entered at once, wherever the
process stands, with its mask and its own signal blocked until it returns;
otherwise the process is ended, stopped or left alone; its process group is not
orphaned.  Neither `SIGKILL` nor `SIGSTOP` can be blocked.  `SIGCONT` takes the
stop signals out of those pending when it is sent, and they take it out.

A program is given by what it does at each of its places (`Instr`).  Signals
are sent and delivered between any two of its steps.
-/

import Mathlib.Data.Finset.Lattice.Basic
import Mathlib.Data.Finset.SDiff
import Mathlib.Order.Interval.Finset.Nat
import OSNetWorkCode.Lib.Transition

namespace OSNetWorkCode
namespace Unix

/-- What a signal does to a process by default. -/
inductive ByDefault
  | terminate
  | ignore
  | stop
  | resume
  deriving DecidableEq

/-- `SIGCHLD`, `SIGURG` and `SIGWINCH` are ignored, `SIGCONT` resumes, and
`SIGSTOP`, `SIGTSTP`, `SIGTTIN` and `SIGTTOU` stop. -/
def byDefault (sig : ℕ) : ByDefault :=
  if sig = 17 ∨ sig = 23 ∨ sig = 28 then .ignore
  else if sig = 18 then .resume
  else if 19 ≤ sig ∧ sig ≤ 22 then .stop
  else .terminate

/-- The signals that are taken out of those pending when `sig` is sent. -/
def cancels (sig : ℕ) : Finset ℕ :=
  match byDefault sig with
  | .stop => {18}
  | .resume => {19, 20, 21, 22}
  | _ => ∅

/-- The signals that can be blocked. -/
def blockable : Finset ℕ := Finset.Icc 1 31 \ {9, 19}

/-- What the program does at a place.  A handler has a place for its entry. -/
inductive Instr (L : Type*)
  | print (bytes : List UInt8) (k : L)
  | sigpending (k : Finset ℕ → L)
  /-- `sigprocmask(SIG_BLOCK)`. -/
  | block (sigs : Finset ℕ) (k : L)
  | sigaction (sig : ℕ) (entry : L) (mask : Finset ℕ) (k : L)
  /-- Anything that has to do with none of this. -/
  | goto (k : L)
  /-- The end of a handler. -/
  | ret

/-- Whether the process is there and runs; a signal that ended it stays
known. -/
inductive Life
  | running
  | stopped
  | ended (sig : ℕ)
  deriving DecidableEq

/-- What happened, in order. -/
inductive Event
  | sent (sig : ℕ)
  | blocked (sigs : Finset ℕ)
  | installed (sig : ℕ)
  /-- `sigpending` returned this set. -/
  | looked (pending : Finset ℕ)
  | printed (bytes : List UInt8)
  deriving DecidableEq

/-- What was printed. -/
def Event.printed? : Event → Option (List UInt8)
  | printed bytes => some bytes
  | _ => none

/-- What was looked at. -/
def Event.looked? : Event → Option (Finset ℕ)
  | looked pending => some pending
  | _ => none

/-- A process: where it stands, and the places it was interrupted at with what
was blocked there. -/
structure Signaled (L : Type*) where
  life : Life
  place : L
  frames : List (L × Finset ℕ)
  pending : Finset ℕ
  blocked : Finset ℕ
  handler : ℕ → Option (L × Finset ℕ)
  events : List Event

namespace Signaled

variable {L : Type*}

/-- A process at the start of its program. -/
def new (l : L) : Signaled L := ⟨.running, l, [], ∅, ∅, fun _ => none, []⟩

/-- Something is recorded. -/
def record (s : Signaled L) (e : Event) : Signaled L := { s with events := s.events ++ [e] }

/-- One step of the program. -/
def run (s : Signaled L) : Instr L → Option (Signaled L)
  | .print bytes k => some { s.record (.printed bytes) with place := k }
  | .sigpending k =>
    some { s.record (.looked (s.pending ∩ s.blocked)) with place := k (s.pending ∩ s.blocked) }
  | .block sigs k =>
    some { s.record (.blocked sigs) with place := k, blocked := s.blocked ∪ sigs ∩ blockable }
  | .sigaction sig entry mask k =>
    some { s.record (.installed sig) with
      place := k, handler := Function.update s.handler sig (some (entry, mask)) }
  | .goto k => some { s with place := k }
  | .ret =>
    match s.frames with
    | (place, blocked) :: frames =>
      some { s with place := place, blocked := blocked, frames := frames }
    | [] => none

/-- A signal that does nothing but what it does when it is sent. -/
def ignores (s : Signaled L) (sig : ℕ) : Prop :=
  s.handler sig = none ∧ sig ∉ s.blocked ∧ (byDefault sig = .ignore ∨ byDefault sig = .resume)

/-- Whether a signal comes to nothing can be computed. -/
instance instDecidableIgnores (s : Signaled L) (sig : ℕ) : Decidable (s.ignores sig) :=
  inferInstanceAs (Decidable (_ = none ∧ _))

/-- `sig` is sent. -/
def send (s : Signaled L) (sig : ℕ) : Signaled L :=
  { s.record (.sent sig) with
    life := if sig = 18 ∧ s.life = .stopped then .running else s.life
    pending := if s.ignores sig then s.pending \ cancels sig
      else insert sig (s.pending \ cancels sig) }

/-- What is done with a signal that was pending. -/
def deliver (s : Signaled L) (sig : ℕ) : Signaled L :=
  match s.handler sig with
  | some (entry, mask) =>
    { s with
      pending := s.pending.erase sig
      place := entry
      frames := (s.place, s.blocked) :: s.frames
      blocked := s.blocked ∪ insert sig mask ∩ blockable }
  | none =>
    match byDefault sig with
    | .terminate => { s with pending := s.pending.erase sig, life := .ended sig }
    | .stop => { s with pending := s.pending.erase sig, life := .stopped }
    | _ => { s with pending := s.pending.erase sig }

/-- What may happen next. -/
inductive Action
  /-- The program takes a step. -/
  | run
  | send (sig : ℕ)
  | deliver (sig : ℕ)

/-- A signal can be delivered: to a stopped process only `SIGKILL` can. -/
def Ready (s : Signaled L) (sig : ℕ) : Prop :=
  sig ∈ s.pending ∧ sig ∉ s.blocked ∧ (s.life = .running ∨ s.life = .stopped ∧ sig = 9)

/-- Whether a signal can be delivered can be computed. -/
instance instDecidableReady (s : Signaled L) (sig : ℕ) : Decidable (s.Ready sig) :=
  inferInstanceAs (Decidable (_ ∧ _ ∧ _))

/-- One step of a process that runs `code`, or something that happens to it. -/
def step (code : L → Instr L) (s : Signaled L) : Action → Option (Signaled L)
  | .run => if s.life = .running then s.run (code s.place) else none
  | .send sig => if 1 ≤ sig ∧ sig ≤ 31 then some (s.send sig) else none
  | .deliver sig => if s.Ready sig then some (s.deliver sig) else none

/-- All runs of a program. -/
def runs (code : L → Instr L) (l : L) : System (Signaled L) :=
  .along (fun s => s = new l) (step code) System.anything

/-- The steps, listed. -/
inductive Steps (code : L → Instr L) (s : Signaled L) : Signaled L → Prop
  | run {s'} (hlife : s.life = .running) (h : s.run (code s.place) = some s') : Steps code s s'
  | send {sig} (hsig : 1 ≤ sig ∧ sig ≤ 31) : Steps code s (s.send sig)
  | handle {sig entry mask} (h : s.Ready sig) (hhandler : s.handler sig = some (entry, mask)) :
      Steps code s { s with
        pending := s.pending.erase sig
        place := entry
        frames := (s.place, s.blocked) :: s.frames
        blocked := s.blocked ∪ insert sig mask ∩ blockable }
  | default {sig life} (h : s.Ready sig) (hhandler : s.handler sig = none)
      (hlife : life = .ended sig ∧ byDefault sig = .terminate ∨
        life = .stopped ∧ byDefault sig = .stop ∨
        life = s.life ∧ (byDefault sig = .ignore ∨ byDefault sig = .resume)) :
      Steps code s { s with pending := s.pending.erase sig, life := life }

/-- **What `step` makes is one of the steps,** with a delivery split by what is
done with the signal: a handler, or one of the defaults. -/
theorem steps {code : L → Instr L} {s s' : Signaled L} {a : Action}
    (h : step code s a = some s') : Steps code s s' := by
  cases a with
  | run =>
    simp only [step] at h
    split_ifs at h with hlife
    exact .run hlife h
  | send sig =>
    simp only [step] at h
    split_ifs at h with hsig
    obtain rfl := Option.some.inj h
    exact .send hsig
  | deliver sig =>
    simp only [step] at h
    split_ifs at h with hready
    obtain rfl := Option.some.inj h
    unfold deliver
    split
    · rename_i entry mask hhandler
      exact .handle hready hhandler
    · rename_i hhandler
      cases hdefault : byDefault sig with
      | terminate => exact .default hready hhandler (.inl ⟨rfl, hdefault⟩)
      | stop => exact .default hready hhandler (.inr (.inl ⟨rfl, hdefault⟩))
      | ignore => exact .default hready hhandler (.inr (.inr ⟨rfl, .inl hdefault⟩))
      | resume => exact .default hready hhandler (.inr (.inr ⟨rfl, .inr hdefault⟩))

/-- What is pending behind a signal that is sent: what it does not take out,
and itself, unless it comes to nothing. -/
theorem mem_pending_send {s : Signaled L} {n sig : ℕ} : n ∈ (s.send sig).pending ↔
    n ∈ s.pending ∧ n ∉ cancels sig ∨ n = sig ∧ ¬ s.ignores sig := by
  unfold send
  by_cases hignores : s.ignores sig
  · simp [hignores]
  · simp [hignores, or_comm]

end Signaled

/-! ### What was sent and is not delivered -/

/-- `sig` was sent, and none of those sent since has taken it out. -/
def Sent (events : List Event) (sig : ℕ) : Prop :=
  ∃ before after, events = before ++ .sent sig :: after ∧
    ∀ other, .sent other ∈ after → sig ∉ cancels other

/-- `sig` was blocked. -/
def Blocked (events : List Event) (sig : ℕ) : Prop :=
  ∃ sigs, .blocked sigs ∈ events ∧ sig ∈ sigs ∩ blockable

/-- `sig` was sent after it was blocked, and none of those sent since has taken
it out. -/
def Held (events : List Event) (sig : ℕ) : Prop :=
  ∃ before after, events = before ++ .sent sig :: after ∧ Blocked before sig ∧
    ∀ other, .sent other ∈ after → sig ∉ cancels other

section events

variable {events : List Event} {e : Event} {sig : ℕ}

/-- Where an event stands in a record that has got one more: at its end, or
where it stood before.  The lemmas below about `Sent`, `Held` and `Follows` are
cases of this. -/
theorem append_singleton_cases {pre post : List Event} {x : Event}
    (h : events ++ [e] = pre ++ x :: post) :
    (post = [] ∧ pre = events ∧ x = e) ∨
      ∃ rest, post = rest ++ [e] ∧ events = pre ++ x :: rest := by
  rcases List.eq_nil_or_concat post with rfl | ⟨rest, y, rfl⟩
  · obtain ⟨rfl, hx⟩ := List.append_inj' h rfl
    exact .inl ⟨rfl, rfl, (List.cons.inj hx).1.symm⟩
  · have h' : events ++ [e] = (pre ++ x :: rest) ++ [y] := by simpa using h
    obtain ⟨rfl, hy⟩ := List.append_inj' h' rfl
    obtain rfl := (List.cons.inj hy).1
    exact .inr ⟨rest, by simp, rfl⟩

/-- Each event is one that `P` allows behind those before it.  So a statement
about all moments of a run is one about its record. -/
def Follows (P : List Event → Event → Prop) (events : List Event) : Prop :=
  ∀ pre x post, events = pre ++ x :: post → P pre x

/-- Of no events there is nothing to show. -/
theorem Follows.nil {P : List Event → Event → Prop} : Follows P [] := by
  intro pre x post h
  cases pre <;> cases h

/-- One more event, which `P` allows behind all others. -/
theorem Follows.append {P : List Event → Event → Prop} (h : Follows P events) (he : P events e) :
    Follows P (events ++ [e]) := by
  intro pre x post heq
  rcases append_singleton_cases heq with ⟨-, rfl, rfl⟩ | ⟨rest, -, hold⟩
  · exact he
  · exact h pre x rest hold

/-- Only stop signals and `SIGCONT` are ever taken out.  All others stay
pending until they are delivered. -/
theorem range_of_mem_cancels {n : ℕ} (h : n ∈ cancels sig) : 18 ≤ n ∧ n ≤ 22 := by
  unfold cancels at h
  split at h
  · obtain rfl := Finset.mem_singleton.1 h
    omega
  · simp only [Finset.mem_insert, Finset.mem_singleton] at h
    omega
  · exact absurd h (Finset.notMem_empty n)

/-- What was sent and not taken out was sent. -/
theorem Sent.mem (h : Sent events sig) : .sent sig ∈ events := by
  obtain ⟨before, after, rfl, -⟩ := h
  exact List.mem_append_right _ List.mem_cons_self

/-- It stays so behind an event that does not take it out. -/
theorem Sent.append (h : Sent events sig) (he : ∀ other, e = .sent other → sig ∉ cancels other) :
    Sent (events ++ [e]) sig := by
  obtain ⟨before, after, rfl, hafter⟩ := h
  refine ⟨before, after ++ [e], by simp, fun other hother => ?_⟩
  rcases List.mem_append.1 hother with hold | hnew
  · exact hafter other hold
  · exact he other (List.mem_singleton.1 hnew).symm

/-- What was sent just now has not been taken out. -/
theorem Sent.last : Sent (events ++ [.sent sig]) sig := ⟨events, [], rfl, nofun⟩

/-- What was blocked stays blocked: `SIG_BLOCK` only adds signals. -/
theorem Blocked.append (h : Blocked events sig) : Blocked (events ++ [e]) sig := by
  obtain ⟨sigs, hmem, hsig⟩ := h
  exact ⟨sigs, List.mem_append_left _ hmem, hsig⟩

/-- Exactly the signals that one more event blocks are added. -/
theorem blocked_append_iff : Blocked (events ++ [e]) sig ↔
    Blocked events sig ∨ ∃ sigs, e = .blocked sigs ∧ sig ∈ sigs ∩ blockable := by
  constructor
  · rintro ⟨sigs, hmem, hsig⟩
    rcases List.mem_append.1 hmem with hold | hnew
    · exact .inl ⟨sigs, hold, hsig⟩
    · exact .inr ⟨sigs, (List.mem_singleton.1 hnew).symm, hsig⟩
  · rintro (h | ⟨sigs, rfl, hsig⟩)
    · exact h.append
    · exact ⟨sigs, List.mem_append_right _ (List.mem_singleton.2 rfl), hsig⟩

/-- What is held was blocked. -/
theorem Held.blocked (h : Held events sig) : Blocked events sig := by
  obtain ⟨before, after, rfl, ⟨sigs, hmem, hsig⟩, -⟩ := h
  exact ⟨sigs, List.mem_append_left _ hmem, hsig⟩

/-- What becomes of a signal that is held when one more event is recorded: it
was sent just now, or was held and is not taken out. -/
theorem held_append (h : Held (events ++ [e]) sig) :
    (e = .sent sig ∧ Blocked events sig) ∨
      Held events sig ∧ ∀ other, e = .sent other → sig ∉ cancels other := by
  obtain ⟨before, after, heq, hblocked, hafter⟩ := h
  rcases append_singleton_cases heq with ⟨-, rfl, he⟩ | ⟨rest, rfl, rfl⟩
  · exact .inl ⟨he.symm, hblocked⟩
  · refine .inr ⟨⟨before, rest, rfl, hblocked, fun other hother => ?_⟩, fun other he => ?_⟩
    · exact hafter other (List.mem_append_left _ hother)
    · exact hafter other (List.mem_append_right _ (List.mem_singleton.2 he.symm))

end events

/-- The program installs no handler, and returns from none.  Then what is
blocked is never unblocked. -/
def Plain {L : Type*} (code : L → Instr L) : Prop :=
  ∀ l, code l ≠ .ret ∧ ∀ sig entry mask k, code l ≠ .sigaction sig entry mask k

/-- **What is blocked, what is pending, and what `sigpending` told,** in terms
of the events. -/
structure Kept {L : Type*} (s : Signaled L) : Prop where
  handler : ∀ sig, s.handler sig = none
  range : ∀ sig, .sent sig ∈ s.events → 1 ≤ sig ∧ sig ≤ 31
  blocked : ∀ sig, sig ∈ s.blocked ↔ Blocked s.events sig
  held : ∀ sig, Held s.events sig → sig ∈ s.pending
  sent : ∀ sig ∈ s.pending, Sent s.events sig
  looked : ∀ pre S post, s.events = pre ++ .looked S :: post →
    (∀ sig, Held pre sig → sig ∈ S) ∧ ∀ sig ∈ S, sig ∈ s.blocked ∧ Sent pre sig ∧
      ((∀ other, .sent other ∈ post → sig ∉ cancels other) → sig ∈ s.pending)
  grows : ∀ pre S mid S' post, s.events = pre ++ .looked S :: (mid ++ .looked S' :: post) →
    ∀ sig ∈ S, (∀ other, .sent other ∈ mid → sig ∉ cancels other) → sig ∈ S'

namespace Kept

open Signaled (mem_pending_send)

variable {L : Type*} {s s' : Signaled L} {code : L → Instr L}

/-- At the start nothing is blocked, and nothing was sent. -/
theorem new (l : L) : Kept (Signaled.new l) where
  handler _ := rfl
  range _ h := by cases h
  blocked sig := ⟨fun h => absurd h (Finset.notMem_empty sig), fun ⟨_, h, _⟩ => by cases h⟩
  held sig h := by
    obtain ⟨before, after, heq, -⟩ := h
    cases before <;> cases heq
  sent sig h := absurd h (Finset.notMem_empty sig)
  looked pre S post h := by cases pre <;> cases h
  grows pre S mid S' post h := by cases pre <;> cases h

/-- **An event of the program:** what is pending stays as it is.  At a look,
what is held is found pending and blocked; what was found before is there
still, unless it was taken out. -/
theorem record (h : Kept s) {e : Event} (he : ∀ sig, e ≠ .sent sig)
    (hlooked : ∀ S, e = .looked S → S = s.pending ∩ s.blocked)
    (hblocked : ∀ sig, sig ∈ s'.blocked ↔ Blocked (s.events ++ [e]) sig)
    (hhandler : s'.handler = s.handler) (hpending : s'.pending = s.pending)
    (hevents : s'.events = s.events ++ [e]) : Kept s' := by
  have hheld : ∀ sig, Held s.events sig → sig ∈ s.pending ∩ s.blocked := fun sig hsig =>
    Finset.mem_inter.2 ⟨h.held sig hsig, (h.blocked sig).2 hsig.blocked⟩
  refine ⟨fun sig => by rw [hhandler, h.handler sig], fun sig hsig => ?_,
    fun sig => by rw [hevents, hblocked sig], fun sig hsig => ?_, fun sig hsig => ?_,
    fun pre S post heq => ?_, fun pre S mid S' post heq => ?_⟩
  · rw [hevents] at hsig
    rcases List.mem_append.1 hsig with hold | hnew
    · exact h.range sig hold
    · exact absurd (List.mem_singleton.1 hnew).symm (he sig)
  · rw [hevents] at hsig
    rw [hpending]
    rcases held_append hsig with ⟨hsent, -⟩ | ⟨hold, -⟩
    · exact absurd hsent (he sig)
    · exact h.held sig hold
  · rw [hpending] at hsig
    rw [hevents]
    exact (h.sent sig hsig).append fun other hother => absurd hother (he other)
  · rw [hevents] at heq
    have hmono : ∀ sig, sig ∈ s.blocked → sig ∈ s'.blocked := fun sig hsig =>
      (hblocked sig).2 ((h.blocked sig).1 hsig).append
    rcases append_singleton_cases heq with ⟨rfl, rfl, hx⟩ | ⟨rest, rfl, hold⟩
    · obtain rfl := hlooked S hx.symm
      refine ⟨hheld, fun sig hsig => ?_⟩
      obtain ⟨hsig, hsigblocked⟩ := Finset.mem_inter.1 hsig
      refine ⟨hmono sig hsigblocked, h.sent sig hsig, fun _ => ?_⟩
      rw [hpending]
      exact hsig
    · obtain ⟨hfirst, hsecond⟩ := h.looked pre S rest hold
      refine ⟨hfirst, fun sig hsig => ?_⟩
      obtain ⟨hsigblocked, hsent, hstays⟩ := hsecond sig hsig
      refine ⟨hmono sig hsigblocked, hsent, fun hrest => ?_⟩
      rw [hpending]
      exact hstays fun other hother => hrest other (List.mem_append_left _ hother)
  · rw [hevents, ← List.cons_append, ← List.append_assoc] at heq
    rcases append_singleton_cases heq with ⟨-, hpre, hx⟩ | ⟨rest, -, hold⟩
    · obtain rfl := hlooked S' hx.symm
      intro sig hsig hmid
      obtain ⟨-, hsecond⟩ := h.looked pre S mid hpre.symm
      obtain ⟨hsigblocked, -, hstays⟩ := hsecond sig hsig
      exact Finset.mem_inter.2 ⟨hstays hmid, hsigblocked⟩
    · refine h.grows pre S mid S' rest ?_
      rw [hold]
      simp

/-- **A step of a program** that has no handlers.  It adds to what is blocked
at most, and a look finds what is kept. -/
theorem run (h : Kept s) (hplain : Plain code) (hs : s.run (code s.place) = some s') : Kept s' := by
  have hcode := hplain s.place
  have hsame : ∀ {e : Event}, (∀ sigs, e ≠ .blocked sigs) →
      ∀ sig, sig ∈ s.blocked ↔ Blocked (s.events ++ [e]) sig := fun he sig => by
    rw [blocked_append_iff, h.blocked sig]
    exact ⟨.inl, fun hor => hor.resolve_right fun ⟨sigs, heq, _⟩ => he sigs heq⟩
  cases hinstr : code s.place with
  | print bytes k =>
    rw [hinstr] at hs
    obtain rfl := Option.some.inj hs
    exact h.record (e := .printed bytes) nofun nofun (hsame nofun) rfl rfl rfl
  | sigpending k =>
    rw [hinstr] at hs
    obtain rfl := Option.some.inj hs
    refine h.record (e := .looked (s.pending ∩ s.blocked)) nofun (fun S hS => ?_) (hsame nofun)
      rfl rfl rfl
    cases hS
    rfl
  | block sigs k =>
    rw [hinstr] at hs
    obtain rfl := Option.some.inj hs
    refine h.record (e := .blocked sigs) nofun nofun (fun sig => ?_) rfl rfl rfl
    rw [blocked_append_iff]
    show sig ∈ s.blocked ∪ sigs ∩ blockable ↔ _
    rw [Finset.mem_union, h.blocked sig]
    refine or_congr_right ⟨fun hsig => ⟨sigs, rfl, hsig⟩, ?_⟩
    rintro ⟨_, heq, hsig⟩
    cases heq
    exact hsig
  | goto k =>
    rw [hinstr] at hs
    obtain rfl := Option.some.inj hs
    exact ⟨h.handler, h.range, h.blocked, h.held, h.sent, h.looked, h.grows⟩
  | sigaction sig entry mask k => exact absurd hinstr (hcode.2 sig entry mask k)
  | ret => exact absurd hinstr hcode.1

/-- **A signal that is sent:** it takes out those it cancels, and is pending if
it is blocked.  What is held afterwards was held before, or is this one. -/
theorem send (h : Kept s) {sig : ℕ} (hsig : 1 ≤ sig ∧ sig ≤ 31) : Kept (s.send sig) := by
  have hstays : ∀ {n}, n ∈ s.pending → n ∉ cancels sig → n ∈ (s.send sig).pending :=
    fun hn hcancels => mem_pending_send.2 (.inl ⟨hn, hcancels⟩)
  refine ⟨h.handler, fun n hn => ?_, fun n => ?_, fun n hn => ?_, fun n hn => ?_,
    fun pre S post heq => ?_, fun pre S mid S' post heq => ?_⟩
  · rcases List.mem_append.1 hn with hold | hnew
    · exact h.range n hold
    · cases List.mem_singleton.1 hnew
      exact hsig
  · show n ∈ s.blocked ↔ Blocked (s.events ++ [.sent sig]) n
    rw [blocked_append_iff, h.blocked n]
    exact ⟨.inl, fun hor => hor.resolve_right fun ⟨_, heq, _⟩ => by cases heq⟩
  · rcases held_append hn with ⟨heq, hblocked⟩ | ⟨hold, hcancels⟩
    · cases heq
      exact mem_pending_send.2
        (.inr ⟨rfl, fun hignores => hignores.2.1 ((h.blocked sig).2 hblocked)⟩)
    · exact hstays (h.held n hold) (hcancels sig rfl)
  · rcases mem_pending_send.1 hn with ⟨hold, hcancels⟩ | ⟨rfl, -⟩
    · refine (h.sent n hold).append fun other hother => ?_
      cases hother
      exact hcancels
    · exact .last
  · rcases append_singleton_cases heq with ⟨-, -, hx⟩ | ⟨rest, rfl, hold⟩
    · cases hx
    · obtain ⟨hfirst, hsecond⟩ := h.looked pre S rest hold
      refine ⟨hfirst, fun n hn => ?_⟩
      obtain ⟨hblocked, hsent, hold⟩ := hsecond n hn
      refine ⟨hblocked, hsent, fun hrest => hstays (hold fun other hother => ?_) ?_⟩
      · exact hrest other (List.mem_append_left _ hother)
      · exact hrest sig (List.mem_append_right _ List.mem_cons_self)
  · rw [← List.cons_append, ← List.append_assoc] at heq
    rcases append_singleton_cases heq with ⟨-, -, hx⟩ | ⟨rest, -, hold⟩
    · cases hx
    · refine h.grows pre S mid S' rest ?_
      rw [hold]
      simp

/-- **One step** of a program without handlers: only what is not blocked is
delivered, so nothing that is held is taken out of those pending. -/
theorem step (h : Kept s) (hplain : Plain code) (hs : Signaled.Steps code s s') : Kept s' := by
  cases hs with
  | run hlife hs => exact h.run hplain hs
  | send hsig => exact h.send hsig
  | handle hready hhandler =>
    rw [h.handler] at hhandler
    cases hhandler
  | @default sig life hready hhandler hlife =>
    have hne : ∀ {n}, n ∈ s.blocked → n ≠ sig := fun hn heq => hready.2.1 (heq ▸ hn)
    refine ⟨h.handler, h.range, h.blocked, fun n hn => ?_, fun n hn => ?_,
      fun pre S post heq => ?_, h.grows⟩
    · exact Finset.mem_erase.2 ⟨hne ((h.blocked n).2 hn.blocked), h.held n hn⟩
    · exact h.sent n (Finset.mem_of_mem_erase hn)
    · obtain ⟨hfirst, hsecond⟩ := h.looked pre S post heq
      refine ⟨hfirst, fun n hn => ?_⟩
      obtain ⟨hblocked, hsent, hstays⟩ := hsecond n hn
      exact ⟨hblocked, hsent, fun hpost => Finset.mem_erase.2 ⟨hne hblocked, hstays hpost⟩⟩

end Kept

/-- **In every run of a program without handlers** what is blocked is kept, by
induction on the run. -/
theorem kept {L : Type*} {code : L → Instr L} {l : L} {s : Signaled L} (hplain : Plain code)
    (h : (Signaled.runs code l).Reachable s) : Kept s := by
  refine h.invariant (fun s hs => ?_) (fun s s' _ hkept hs => ?_)
  · rw [hs]
    exact .new l
  · obtain ⟨a, -, ha⟩ := hs
    exact hkept.step hplain (Signaled.steps ha)

end Unix
end OSNetWorkCode
