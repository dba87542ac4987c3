/-
# What the handler of `SIGINT` does

In `0108/mysignal1.cc` the signals 2 to 7 are blocked while `handler` is
running.  So it is never entered twice over, nothing that `main` prints comes
in between what it prints, and the sets it prints only grow (`handler_whole`).
Those of `SIGINT` that are sent meanwhile are one call of the handler later on:
there are at most as many calls as were sent, but one behind each
(`interrupts_handled`).
-/

import OSNetWorkCode.MySignal.Model

namespace OSNetWorkCode
namespace MySignal

open Unix

/-- The signals that are blocked while the handler is running. -/
def meanwhile : Finset ℕ := insert 2 saMask

/-! ### What is printed -/

/-- What is printed without anything in between: a piece of the report, or what
a call of the handler prints for the sets it looks at. -/
inductive Chunk
  | piece (bytes : List UInt8)
  | call (looks : List (Finset ℕ))

namespace Chunk

/-- The lines of a chunk.  A call begins with the line that says which signal
was caught. -/
def lines : Chunk → List (List UInt8)
  | piece bytes => [bytes]
  | call looks => caughtLine 2 :: looks.map showPending

/-- The sets that were looked at for a chunk: one for each line of a call
behind the first. -/
def looks : Chunk → List (Finset ℕ)
  | piece _ => []
  | call looks => looks

/-- The piece of the report that a chunk is, if it is none of the handler. -/
def piece? : Chunk → Option (List UInt8)
  | piece bytes => some bytes
  | call _ => none

/-- What a chunk is once `handler` was left again: ten looks, each showing what
the one before it shows, and nothing but the signals that are blocked
meanwhile. -/
def Whole : Chunk → Prop
  | piece _ => True
  | call looks => looks.length = 10 ∧ looks.Pairwise (· ⊆ ·) ∧ ∀ S ∈ looks, S ⊆ meanwhile

end Chunk

/-- How often `handler` was called. -/
def calls (done : List Chunk) : ℕ := done.countP fun c => c.piece?.isNone

/-- The calls are counted chunk by chunk. -/
theorem calls_cons (c : Chunk) (done : List Chunk) :
    calls (c :: done) = calls done + if c.piece?.isNone then 1 else 0 := List.countP_cons

/-- A line of digits is not the line that says which signal was caught: it is
the longer one. -/
theorem showPending_ne (S : Finset ℕ) : showPending S ≠ caughtLine 2 := by
  intro h
  have hhead := congrArg List.head? h
  simp only [showPending, List.range'_succ, List.map_cons, List.cons_append,
    List.head?_cons] at hhead
  split_ifs at hhead <;> cases hhead

/-- **Each call has one line** that says which signal was caught, so that the
calls can be counted in the output.  Neither the report nor a line of digits
contains it. -/
theorem count_caughtLine {done : List Chunk}
    (hdone : ∀ bytes, .piece bytes ∈ done → bytes ∈ report) :
    (done.flatMap Chunk.lines).count (caughtLine 2) = calls done := by
  induction done with
  | nil => rfl
  | cons c done ih =>
    have ih := ih fun bytes h => hdone bytes (List.mem_cons_of_mem c h)
    rw [List.flatMap_cons, List.count_append, ih, calls_cons, Nat.add_comm]
    congr 1
    cases c with
    | piece bytes =>
      have hne : bytes ≠ caughtLine 2 := by
        intro h
        have hmem := hdone bytes List.mem_cons_self
        rw [h] at hmem
        exact absurd hmem (by decide)
      exact List.count_eq_zero.2 fun h => hne (List.mem_singleton.1 h).symm
    | call looks =>
      have hlooks : (looks.map showPending).count (caughtLine 2) = 0 :=
        List.count_eq_zero.2 fun h => by
          obtain ⟨S, -, hS⟩ := List.mem_map.1 h
          exact showPending_ne S hS
      rw [Chunk.lines, List.count_cons_self, hlooks]
      rfl

/-! ### What is sent -/

/-- `sig` was sent since `handler` last said which signal it caught. -/
def SinceCaught (events : List Event) (sig : ℕ) : Prop :=
  ∃ before after, events = before ++ .printed (caughtLine 2) :: after ∧ .sent sig ∈ after ∧
    .printed (caughtLine 2) ∉ after

/-- What is sent next to what was sent since.  The line itself begins the time
anew. -/
theorem SinceCaught.cases {events : List Event} {e : Event} {sig : ℕ}
    (h : SinceCaught (events ++ [e]) sig) :
    e ≠ .printed (caughtLine 2) ∧ (e = .sent sig ∨ SinceCaught events sig) := by
  obtain ⟨before, after, heq, hsent, hnone⟩ := h
  rcases append_singleton_cases heq with ⟨rfl, -, -⟩ | ⟨rest, rfl, rfl⟩
  · cases hsent
  · refine ⟨fun he => hnone (List.mem_append_right _ (List.mem_singleton.2 he.symm)), ?_⟩
    rcases List.mem_append.1 hsent with hold | hnew
    · exact .inr ⟨before, rest, rfl, hold, fun h => hnone (List.mem_append_left _ h)⟩
    · exact .inl (List.mem_singleton.1 hnew).symm

/-- A look shows the signals 2 to 7 that were sent since, and none that was not
sent.  The other events say nothing of this kind. -/
def Seen (events : List Event) : Event → Prop
  | .looked S => (∀ sig ∈ meanwhile, SinceCaught events sig → sig ∈ S) ∧
      ∀ sig ∈ S, .sent sig ∈ events
  | _ => True

/-! ### The invariant -/

/-- What `main` has left to print at one of its places. -/
def Catching.left : Catching → Option (List (List UInt8))
  | .report left => some left
  | .pause => some []
  | _ => none

/-- `sigaction` was called. -/
def caughtBy : ℕ → Option (Catching × Finset ℕ) :=
  Function.update (fun _ => none) 2 (some (.caught 2, saMask))

/-- The chunks printed, and the sets looked at for them.  A set in `seen` was
looked at and not yet printed. -/
structure Printed (s : Signaled Catching) (chunks : List Chunk) (seen : List (Finset ℕ)) :
    Prop where
  lines : s.events.filterMap Event.printed? = chunks.flatMap Chunk.lines
  looks : s.events.filterMap Event.looked? = chunks.flatMap Chunk.looks ++ seen

/-- `main` is running and has `left` to print. -/
structure AtMain (s : Signaled Catching) (done : List Chunk) (left : List (List UInt8)) : Prop where
  frames : s.frames = []
  blocked : s.blocked = ∅
  handler : s.handler = caughtBy
  pieces : done.filterMap Chunk.piece? ++ left = report
  printed : Printed s done []

/-- The handler is running, in place of `main`, which goes on behind the frame
with nothing blocked. -/
structure InHandler (s : Signaled Catching) (done : List Chunk) : Prop where
  frames : ∃ l left, s.frames = [(l, ∅)] ∧ l.left = some left ∧
    done.filterMap Chunk.piece? ++ left = report
  blocked : s.blocked = meanwhile
  handler : s.handler = caughtBy

/-- The handler has `todo` lines to print, the first of them for what is in
`seen`.  What was sent of 2 to 7 since the call began is still pending, as
those are blocked; this is why the looks can only grow. -/
structure InCall (s : Signaled Catching) (done : List Chunk) (todo : ℕ) (seen : List (Finset ℕ)) :
    Prop extends InHandler s done where
  since : ∀ sig ∈ meanwhile, SinceCaught s.events sig → sig ∈ s.pending
  looks : ∃ looks, looks.length + todo = 10 ∧ (looks ++ seen).Pairwise (· ⊆ ·) ∧
    (∀ S ∈ looks ++ seen, S ⊆ s.pending ∩ meanwhile) ∧ Printed s (done ++ [.call looks]) seen

/-- What holds at a place. -/
def Stands (s : Signaled Catching) (done : List Chunk) : Catching → Prop
  | .sigaction => s.frames = [] ∧ s.blocked = ∅ ∧ s.handler = (fun _ => none) ∧ done = [] ∧
      Printed s [] [] ∧ ∀ sig, .installed sig ∉ s.events
  | .report left => AtMain s done left
  | .pause => AtMain s done []
  | .caught signum => signum = 2 ∧ InHandler s done ∧ Printed s done []
  | .test cnt => InCall s done cnt []
  | .sigpending cnt => InCall s done (cnt + 1) []
  | .show cnt S => InCall s done (cnt + 1) [S]
  | .sleep cnt => InCall s done cnt []

/-- **The invariant of `main` and its handler.**  `count` is the balance of
`SIGINT`: the calls so far, the one that is running and the one that is pending
have each been sent. -/
structure Handled (s : Signaled Catching) (done : List Chunk) : Prop where
  whole : ∀ c ∈ done, c.Whole
  stands : Stands s done s.place
  count : calls done + s.frames.length + (if 2 ∈ s.pending then 1 else 0) ≤
    s.events.count (.sent 2)
  sent : ∀ sig ∈ s.pending, .sent sig ∈ s.events
  seen : Follows Seen s.events
  kept : ∀ pre post, s.events = pre ++ .sent 2 :: post →
    .printed (caughtLine 2) ∈ post ∨ s.place = .caught 2 ∨ 2 ∈ s.pending ∨ s.life = .ended 2
  ended : ∀ sig, s.life = .ended sig →
    (sig = 2 → ∀ n, .installed n ∉ s.events) ∧ (s.frames ≠ [] → sig ∉ meanwhile)

/-- `sigaction` was called for `SIGINT` and no other signal. -/
theorem caughtBy_eq_some {sig : ℕ} {entry : Catching} {mask : Finset ℕ}
    (h : caughtBy sig = some (entry, mask)) : sig = 2 ∧ entry = .caught 2 ∧ mask = saMask := by
  by_cases hsig : sig = 2
  · subst hsig
    rw [caughtBy, Function.update_self] at h
    cases h
    exact ⟨rfl, rfl, rfl⟩
  · rw [caughtBy, Function.update_of_ne hsig] at h
    cases h

section stands

variable {s s' : Signaled Catching} {done : List Chunk} {todo : ℕ} {seen : List (Finset ℕ)}

/-- One more event, and what is printed and looked at then.  The two equations
say what the event adds to the chunks. -/
theorem Printed.append {chunks chunks' : List Chunk} {seen' : List (Finset ℕ)} {e : Event}
    (h : Printed s chunks seen) (hevents : s'.events = s.events ++ [e])
    (hlines : chunks'.flatMap Chunk.lines =
      chunks.flatMap Chunk.lines ++ [e].filterMap Event.printed?)
    (hlooks : chunks'.flatMap Chunk.looks ++ seen' =
      chunks.flatMap Chunk.looks ++ seen ++ [e].filterMap Event.looked?) :
    Printed s' chunks' seen' := by
  refine ⟨?_, ?_⟩
  · rw [hevents, List.filterMap_append, h.lines, hlines]
  · rw [hevents, List.filterMap_append, h.looks, hlooks]

/-- **Where the program can stand:** before `sigaction`, in `main`, at the
entry of the handler or in a call of it.  The proofs below are about these four
and not about the places. -/
theorem Stands.cases {l : Catching} (h : Stands s done l) :
    (l = .sigaction ∧ s.frames = [] ∧ s.handler = (fun _ => none) ∧ done = [] ∧ Printed s [] [] ∧
      ∀ sig, .installed sig ∉ s.events) ∨
    (∃ left, l.left = some left ∧ AtMain s done left) ∨
    (InHandler s done ∧ Printed s done []) ∨
    ∃ todo seen, seen.length ≤ 1 ∧ InCall s done todo seen := by
  cases l with
  | sigaction =>
    obtain ⟨hframes, -, hhandler, hdone, hshown, hnone⟩ := h
    exact .inl ⟨rfl, hframes, hhandler, hdone, hshown, hnone⟩
  | report left => exact .inr (.inl ⟨left, rfl, h⟩)
  | pause => exact .inr (.inl ⟨[], rfl, h⟩)
  | caught signum => exact .inr (.inr (.inl h.2))
  | test cnt => exact .inr (.inr (.inr ⟨cnt, [], Nat.zero_le 1, h⟩))
  | sigpending cnt => exact .inr (.inr (.inr ⟨cnt + 1, [], Nat.zero_le 1, h⟩))
  | «show» cnt S => exact .inr (.inr (.inr ⟨cnt + 1, [S], le_rfl, h⟩))
  | sleep cnt => exact .inr (.inr (.inr ⟨cnt, [], Nat.zero_le 1, h⟩))

/-- **Either `main` is running or the handler,** and then `main` is what it
returns to.  So a signal that is delivered finds no second frame. -/
theorem Stands.sides (h : Stands s done s.place) :
    (s.frames = [] ∧ s.handler = (fun _ => none) ∧ ∀ sig, .installed sig ∉ s.events) ∨
    (∃ left, s.place.left = some left ∧ AtMain s done left) ∨ InHandler s done := by
  obtain ⟨-, hframes, hhandler, -, -, hnone⟩ | hmain | ⟨hin, -⟩ | ⟨_, _, -, hcall⟩ := h.cases
  · exact .inl ⟨hframes, hhandler, hnone⟩
  · exact .inr (.inl hmain)
  · exact .inr (.inr hin)
  · exact .inr (.inr hcall.toInHandler)

/-- What `main` has printed of its report, and what it has left, is the
report. -/
theorem Stands.report_eq (h : Stands s done s.place) :
    ∃ left, done.filterMap Chunk.piece? ++ left = report := by
  have hhandler : InHandler s done → ∃ left, done.filterMap Chunk.piece? ++ left = report := by
    intro hin
    obtain ⟨_, left, -, -, hpieces⟩ := hin.frames
    exact ⟨left, hpieces⟩
  obtain ⟨-, -, -, rfl, -, -⟩ | ⟨left, -, hmain⟩ | ⟨hin, -⟩ | ⟨_, _, -, hcall⟩ := h.cases
  · exact ⟨report, rfl⟩
  · exact ⟨left, hmain.pieces⟩
  · exact hhandler hin
  · exact hhandler hcall.toInHandler

/-- **What was printed:** whole chunks, and in the handler what there is of one
more.  The call that is cut short has at most ten looks, and at most one set
looked at and not yet printed. -/
theorem Stands.output (h : Stands s done s.place) :
    s.frames = [] ∧ Printed s done [] ∨
      InHandler s done ∧ (Printed s done [] ∨ ∃ looks seen : List (Finset ℕ), looks.length ≤ 10 ∧
        looks.Pairwise (· ⊆ ·) ∧ (∀ S ∈ looks, S ⊆ meanwhile) ∧ seen.length ≤ 1 ∧
          Printed s (done ++ [.call looks]) seen) := by
  obtain ⟨-, hframes, -, rfl, hshown, -⟩ | ⟨left, -, hmain⟩ | ⟨hin, hshown⟩ |
    ⟨todo, seen, hseen, hcall⟩ := h.cases
  · exact .inl ⟨hframes, hshown⟩
  · exact .inl ⟨hmain.frames, hmain.printed⟩
  · exact .inr ⟨hin, .inl hshown⟩
  · obtain ⟨looks, hlen, hgrow, hsub, hshown⟩ := hcall.looks
    refine .inr ⟨hcall.toInHandler, .inr ⟨looks, seen, by omega, (List.pairwise_append.1 hgrow).1,
      fun S hS => ?_, hseen, hshown⟩⟩
    exact (hsub S (List.mem_append_left _ hS)).trans Finset.inter_subset_right

/-- **What is sent or thrown away leaves the program where it was,** as long as
the signals that are blocked stay pending. -/
theorem Stands.quiet {l : Catching} (h : Stands s done l) (hframes : s'.frames = s.frames)
    (hblocked : s'.blocked = s.blocked) (hhandler : s'.handler = s.handler)
    (hlines : s'.events.filterMap Event.printed? = s.events.filterMap Event.printed?)
    (hlooks : s'.events.filterMap Event.looked? = s.events.filterMap Event.looked?)
    (hinstalled : ∀ sig, .installed sig ∈ s'.events → .installed sig ∈ s.events)
    (hpending : ∀ sig ∈ s.blocked, sig ∈ meanwhile → sig ∈ s.pending → sig ∈ s'.pending)
    (hsince : ∀ sig ∈ s.blocked, SinceCaught s'.events sig →
      SinceCaught s.events sig ∨ sig ∈ s'.pending) : Stands s' done l := by
  have hprinted : ∀ {chunks seen}, Printed s chunks seen → Printed s' chunks seen := fun h =>
    ⟨hlines.trans h.lines, hlooks.trans h.looks⟩
  have hmain : ∀ {left}, AtMain s done left → AtMain s' done left := fun h =>
    ⟨hframes.trans h.frames, hblocked.trans h.blocked, hhandler.trans h.handler, h.pieces,
      hprinted h.printed⟩
  have hin : InHandler s done → InHandler s' done := fun h =>
    ⟨by rw [hframes]; exact h.frames, hblocked.trans h.blocked, hhandler.trans h.handler⟩
  have hcall : ∀ {todo seen}, InCall s done todo seen → InCall s' done todo seen := by
    intro todo seen h
    obtain ⟨looks, hlen, hgrow, hsub, hshown⟩ := h.looks
    have hkeep : ∀ sig ∈ meanwhile, sig ∈ s.pending → sig ∈ s'.pending := fun sig hsig =>
      hpending sig (h.blocked ▸ hsig) hsig
    refine ⟨hin h.toInHandler, fun sig hsig hsent => ?_, looks, hlen, hgrow, fun S hS => ?_,
      hprinted hshown⟩
    · rcases hsince sig (h.blocked ▸ hsig) hsent with hold | hnew
      · exact hkeep sig hsig (h.since sig hsig hold)
      · exact hnew
    · intro sig hsig
      obtain ⟨hin, hmem⟩ := Finset.mem_inter.1 (hsub S hS hsig)
      exact Finset.mem_inter.2 ⟨hkeep sig hmem hin, hmem⟩
  cases l with
  | sigaction =>
    obtain ⟨hnone, hfree, hinit, hdone, hshown, hnot⟩ := h
    exact ⟨hframes.trans hnone, hblocked.trans hfree, hhandler.trans hinit, hdone, hprinted hshown,
      fun sig hsig => hnot sig (hinstalled sig hsig)⟩
  | report left => exact hmain h
  | pause => exact hmain h
  | caught signum => exact ⟨h.1, hin h.2.1, hprinted h.2.2⟩
  | test cnt => exact hcall h
  | sigpending cnt => exact hcall h
  | «show» cnt S => exact hcall h
  | sleep cnt => exact hcall h

/-! ### The program's own steps -/

/-- **Where the handler is in a call,** moving on from one place of it to
another changes nothing. -/
theorem InCall.goto (h : InCall s done todo seen) (l : Catching) :
    InCall { s with place := l } done todo seen :=
  ⟨⟨h.frames, h.blocked, h.handler⟩, h.since, h.looks.imp fun _ h => ⟨h.1, h.2.1, h.2.2.1,
    ⟨h.2.2.2.lines, h.2.2.2.looks⟩⟩⟩

/-- `sigpending` gives a set that contains the one before it.  What is pending
of 2 to 7 was not taken out in between. -/
theorem InCall.look (h : InCall s done todo []) (l : Catching) :
    InCall { s.record (.looked (s.pending ∩ s.blocked)) with place := l } done todo
      [s.pending ∩ s.blocked] := by
  obtain ⟨looks, hlen, hgrow, hsub, hshown⟩ := h.looks
  rw [List.append_nil] at hgrow hsub
  have hS : s.pending ∩ s.blocked = s.pending ∩ meanwhile := by rw [h.blocked]
  refine ⟨⟨h.frames, h.blocked, h.handler⟩, fun sig hsig hsent => ?_, looks, hlen, ?_,
    fun S hS' => ?_, hshown.append rfl (List.append_nil _).symm (by rw [List.append_nil]; rfl)⟩
  · obtain ⟨-, hnew | hold⟩ := hsent.cases
    · cases hnew
    · exact h.since sig hsig hold
  · refine List.pairwise_append.2 ⟨hgrow, List.pairwise_singleton _ _, fun S hS' T hT => ?_⟩
    rw [List.mem_singleton.1 hT, hS]
    exact hsub S hS'
  · rcases List.mem_append.1 hS' with hold | hnew
    · exact hsub S hold
    · rw [List.mem_singleton.1 hnew, hS]
      exact subset_rfl

/-- `showPending` prints the set that was looked at last.  The call has one
line less to do, and no set that waits to be printed. -/
theorem InCall.show {S : Finset ℕ} (h : InCall s done (todo + 1) [S]) (l : Catching) :
    InCall { s.record (.printed (showPending S)) with place := l } done todo [] := by
  obtain ⟨looks, hlen, hgrow, hsub, hshown⟩ := h.looks
  refine ⟨⟨h.frames, h.blocked, h.handler⟩, fun sig hsig hsent => ?_, looks ++ [S], ?_, ?_, ?_,
    hshown.append rfl (by simp [Event.printed?, Chunk.lines])
      (by simp [Event.looked?, Chunk.looks])⟩
  · obtain ⟨-, hnew | hold⟩ := hsent.cases
    · cases hnew
    · exact h.since sig hsig hold
  · rw [List.length_append, List.length_singleton]
    omega
  · rwa [List.append_nil]
  · rwa [List.append_nil]

/-- `handler` says which signal it caught.  The call begins with that line:
nothing was sent since, and there are ten lines to do. -/
theorem InHandler.caught (h : InHandler s done) (hshown : Printed s done []) (l : Catching) :
    InCall { s.record (.printed (caughtLine 2)) with place := l } done 10 [] :=
  ⟨⟨h.frames, h.blocked, h.handler⟩, fun sig hsig hsent => absurd rfl hsent.cases.1, [], rfl, .nil,
    nofun, hshown.append rfl (by simp [Event.printed?, Chunk.lines])
      (by simp [Event.looked?, Chunk.looks])⟩

/-- `main` prints a piece of its report, and has one less to print. -/
theorem AtMain.print {bytes : List UInt8} {left : List (List UInt8)}
    (h : AtMain s done (bytes :: left)) (l : Catching) :
    AtMain { s.record (.printed bytes) with place := l } (done ++ [.piece bytes]) left := by
  refine ⟨h.frames, h.blocked, h.handler, ?_, h.printed.append rfl
    (by simp [Event.printed?, Chunk.lines]) (by simp [Event.looked?, Chunk.looks])⟩
  rw [List.filterMap_append, ← h.pieces]
  simp [Chunk.piece?]

/-- **`handler` returns:** the call is done, and `main` goes on where it was.
The ten lines were printed, and nothing is blocked any more. -/
theorem InCall.return (h : InCall s done 0 []) {l : Catching} {blocked : Finset ℕ}
    {frames : List (Catching × Finset ℕ)} (hframes : s.frames = (l, blocked) :: frames) :
    ∃ looks, (Chunk.call looks).Whole ∧ frames = [] ∧
      Stands { s with place := l, blocked := blocked, frames := frames }
        (done ++ [.call looks]) l := by
  obtain ⟨looks, hlen, hgrow, hsub, hshown⟩ := h.looks
  rw [List.append_nil] at hgrow hsub
  obtain ⟨l', left, hl', hleft, hpieces⟩ := h.frames
  rw [hframes] at hl'
  cases hl'
  refine ⟨looks, ⟨hlen, hgrow, fun S hS => (hsub S hS).trans Finset.inter_subset_right⟩, rfl, ?_⟩
  have hmain : AtMain { s with place := l, blocked := ∅, frames := [] }
      (done ++ [.call looks]) left :=
    ⟨rfl, rfl, h.handler, by rw [List.filterMap_append, ← hpieces]; simp [Chunk.piece?],
      hshown.lines, hshown.looks⟩
  cases l <;> cases hleft <;> exact hmain

end stands

namespace Handled

variable {s s' : Signaled Catching} {done done' : List Chunk}

/-- **A step of the program keeps the rest,** which is about what was sent: it
sends nothing, and begins no time anew but at the line of the handler. -/
theorem program (h : Handled s done) (hlife : s.life = .running) (hlife' : s'.life = s.life)
    (hpending : s'.pending = s.pending) (hwhole : ∀ c ∈ done', c.Whole)
    (hstands : Stands s' done' s'.place)
    (hcalls : calls done' + s'.frames.length = calls done + s.frames.length)
    (hevents : s'.events = s.events ∧ s.place ≠ .caught 2 ∨ ∃ e, s'.events = s.events ++ [e] ∧
      (∀ sig, e ≠ .sent sig) ∧ Seen s.events e ∧
        (s.place = .caught 2 → e = .printed (caughtLine 2))) : Handled s' done' := by
  have hended : ∀ {sig}, s'.life ≠ .ended sig := fun h => by
    rw [hlife', hlife] at h
    cases h
  have hcount : s'.events.count (.sent 2) = s.events.count (.sent 2) := by
    rcases hevents with ⟨heq, -⟩ | ⟨e, heq, he, -⟩
    · rw [heq]
    · rw [heq, List.count_append, List.count_eq_zero.2 fun h => he 2 (List.mem_singleton.1 h).symm,
        Nat.add_zero]
  have hmono : ∀ e ∈ s.events, e ∈ s'.events := fun e hmem => by
    rcases hevents with ⟨heq, -⟩ | ⟨_, heq, -⟩
    · rwa [heq]
    · rw [heq]
      exact List.mem_append_left _ hmem
  refine ⟨hwhole, hstands, ?_, fun sig hsig => ?_, ?_, fun pre post heq => ?_,
    fun sig hsig => absurd hsig hended⟩
  · rw [hcalls, hpending, hcount]
    exact h.count
  · rw [hpending] at hsig
    exact hmono _ (h.sent sig hsig)
  · rcases hevents with ⟨heq, -⟩ | ⟨e, heq, -, hseen, -⟩
    · rw [heq]
      exact h.seen
    · rw [heq]
      exact h.seen.append hseen
  · rcases hevents with ⟨hsame, hplace⟩ | ⟨e, happend, he, -, hcaught⟩
    · rw [hsame] at heq
      rcases h.kept pre post heq with hold | hold | hold | hold
      · exact .inl hold
      · exact absurd hold hplace
      · exact .inr (.inr (.inl (hpending ▸ hold)))
      · rw [hlife] at hold
        cases hold
    · rw [happend] at heq
      rcases append_singleton_cases heq with ⟨-, -, hx⟩ | ⟨rest, rfl, hold⟩
      · exact absurd hx.symm (he 2)
      rcases h.kept pre rest hold with hold | hold | hold | hold
      · exact .inl (List.mem_append_left _ hold)
      · exact .inl (List.mem_append_right _ (List.mem_singleton.2 (hcaught hold).symm))
      · exact .inr (.inr (.inl (hpending ▸ hold)))
      · rw [hlife] at hold
        cases hold

/-- **A step of `main` or of the handler** keeps the invariant, with the chunk
that it finishes or prints, if any. -/
theorem run (h : Handled s done) (hlife : s.life = .running)
    (hs : s.run (catching s.place) = some s') : ∃ done', Handled s' done' := by
  have hstands := h.stands
  have hnot : ∀ {l}, s.place = l → l ≠ .caught 2 → s.place ≠ .caught 2 := fun hplace hne =>
    hplace ▸ hne
  cases hplace : s.place with
  | sigaction =>
    rw [hplace] at hs hstands
    obtain rfl := Option.some.inj hs
    obtain ⟨hframes, hblocked, hhandler, rfl, hshown, -⟩ := hstands
    have hhandler' : Function.update s.handler 2 (some (.caught 2, saMask)) = caughtBy := by
      rw [hhandler]
      rfl
    exact ⟨[], h.program hlife rfl rfl h.whole
      ⟨hframes, hblocked, hhandler', rfl, hshown.append rfl rfl rfl⟩ rfl
      (.inr ⟨.installed 2, rfl, nofun, trivial, fun hp => absurd hp (hnot hplace nofun)⟩)⟩
  | report left =>
    rw [hplace] at hs hstands
    cases left with
    | nil =>
      obtain rfl := Option.some.inj hs
      exact ⟨done, h.program hlife rfl rfl h.whole ⟨hstands.frames, hstands.blocked,
        hstands.handler, hstands.pieces, hstands.printed.lines, hstands.printed.looks⟩ rfl
        (.inl ⟨rfl, hnot hplace nofun⟩)⟩
    | cons bytes left =>
      obtain rfl := Option.some.inj hs
      have hwhole : ∀ c ∈ done ++ [.piece bytes], c.Whole := by
        intro c hc
        rcases List.mem_append.1 hc with hold | hnew
        · exact h.whole c hold
        · rw [List.mem_singleton.1 hnew]
          trivial
      have hcalls : calls (done ++ [.piece bytes]) = calls done := by
        rw [calls, List.countP_append]
        rfl
      exact ⟨_, h.program hlife rfl rfl hwhole (AtMain.print hstands (.report left))
        (congrArg (· + s.frames.length) hcalls)
        (.inr ⟨.printed bytes, rfl, nofun, trivial, fun hp => absurd hp (hnot hplace nofun)⟩)⟩
  | pause =>
    rw [hplace] at hs hstands
    obtain rfl := Option.some.inj hs
    exact ⟨done, h.program hlife rfl rfl h.whole ⟨hstands.frames, hstands.blocked, hstands.handler,
      hstands.pieces, hstands.printed.lines, hstands.printed.looks⟩ rfl
      (.inl ⟨rfl, hnot hplace nofun⟩)⟩
  | caught signum =>
    rw [hplace] at hs hstands
    obtain ⟨rfl, hin, hshown⟩ := hstands
    obtain rfl := Option.some.inj hs
    exact ⟨done, h.program hlife rfl rfl h.whole (hin.caught hshown _) rfl
      (.inr ⟨.printed (caughtLine 2), rfl, nofun, trivial, fun _ => rfl⟩)⟩
  | test cnt =>
    rw [hplace] at hs hstands
    cases cnt with
    | zero =>
      cases hframes : s.frames with
      | nil =>
        obtain ⟨_, _, hne, -⟩ := hstands.frames
        rw [hframes] at hne
        cases hne
      | cons frame frames =>
        simp only [catching, Signaled.run, hframes] at hs
        obtain rfl := Option.some.inj hs
        obtain ⟨looks, hwhole, rfl, hmain⟩ := InCall.return hstands hframes
        refine ⟨done ++ [.call looks], h.program hlife rfl rfl (fun c hc => ?_) hmain ?_
          (.inl ⟨rfl, hnot hplace nofun⟩)⟩
        · rcases List.mem_append.1 hc with hold | hnew
          · exact h.whole c hold
          · rwa [List.mem_singleton.1 hnew]
        · rw [hframes, calls, List.countP_append]
          rfl
    | succ cnt =>
      obtain rfl := Option.some.inj hs
      exact ⟨done, h.program hlife rfl rfl h.whole (InCall.goto hstands _) rfl
        (.inl ⟨rfl, hnot hplace nofun⟩)⟩
  | sigpending cnt =>
    rw [hplace] at hs hstands
    obtain rfl := Option.some.inj hs
    refine ⟨done, h.program hlife rfl rfl h.whole (InCall.look hstands _) rfl
      (.inr ⟨.looked (s.pending ∩ s.blocked), rfl, nofun, ⟨fun sig hsig hsent => ?_,
        fun sig hsig => ?_⟩, fun hp => absurd hp (hnot hplace nofun)⟩)⟩
    · refine Finset.mem_inter.2 ⟨hstands.since sig hsig hsent, ?_⟩
      rw [hstands.blocked]
      exact hsig
    · exact h.sent sig (Finset.mem_inter.1 hsig).1
  | «show» cnt S =>
    rw [hplace] at hs hstands
    obtain rfl := Option.some.inj hs
    exact ⟨done, h.program hlife rfl rfl h.whole (InCall.show hstands _) rfl
      (.inr ⟨.printed (showPending S), rfl, nofun, trivial,
        fun hp => absurd hp (hnot hplace nofun)⟩)⟩
  | sleep cnt =>
    rw [hplace] at hs hstands
    obtain rfl := Option.some.inj hs
    exact ⟨done, h.program hlife rfl rfl h.whole (InCall.goto hstands _) rfl
      (.inl ⟨rfl, hnot hplace nofun⟩)⟩

/-- **A signal is sent:** `SIGINT` is pending from then on, which is one more
sent than handled. -/
theorem send (h : Handled s done) (sig : ℕ) : Handled (s.send sig) done := by
  have hkeep : ∀ {n}, n ∈ meanwhile → n ∈ s.pending → n ∈ (s.send sig).pending := by
    refine fun {n} hn hpending => Signaled.mem_pending_send.2 (.inl ⟨hpending, fun hcancels => ?_⟩)
    have hle : ∀ n ∈ meanwhile, n < 18 := by decide
    exact absurd (hle n hn) (by have := (range_of_mem_cancels hcancels).1; omega)
  have hnotignored : ¬ s.ignores 2 := fun h => by
    rcases h.2.2 with h | h <;> cases h
  have hlife : ∀ {n}, (s.send sig).life = .ended n ↔ s.life = .ended n := by
    intro n
    show (if sig = 18 ∧ s.life = .stopped then Life.running else s.life) = .ended n ↔ _
    split_ifs with hcont
    · rw [hcont.2]
      exact ⟨nofun, nofun⟩
    · rfl
  have hinstalled : ∀ n, .installed n ∈ (s.send sig).events → .installed n ∈ s.events :=
    fun n hn => (List.mem_append.1 hn).resolve_right fun h => by cases List.mem_singleton.1 h
  refine ⟨h.whole, ?_, ?_, fun n hn => ?_, h.seen.append trivial, fun pre post heq => ?_,
    fun n hn => ?_⟩
  · refine Stands.quiet h.stands rfl rfl rfl ?_ ?_ hinstalled (fun n _ => hkeep)
      fun n hn hsent => ?_
    · show (s.events ++ [_]).filterMap _ = _
      rw [List.filterMap_append]
      exact List.append_nil _
    · show (s.events ++ [_]).filterMap _ = _
      rw [List.filterMap_append]
      exact List.append_nil _
    · obtain ⟨-, hnew | hold⟩ := hsent.cases
      · cases hnew
        exact .inr (Signaled.mem_pending_send.2 (.inr ⟨rfl, fun h => h.2.1 hn⟩))
      · exact .inl hold
  · have hcount := h.count
    show calls done + s.frames.length + _ ≤ (s.events ++ [Event.sent sig]).count (Event.sent 2)
    rw [List.count_append]
    by_cases hsig : sig = 2
    · subst hsig
      rw [List.count_singleton_self]
      split_ifs <;> omega
    · have hpending : 2 ∈ (s.send sig).pending → 2 ∈ s.pending := fun hmem => by
        rcases Signaled.mem_pending_send.1 hmem with ⟨hold, -⟩ | ⟨heq, -⟩
        · exact hold
        · exact absurd heq.symm hsig
      by_cases hmem : 2 ∈ (s.send sig).pending
      · rw [if_pos (hpending hmem)] at hcount
        rw [if_pos hmem]
        omega
      · rw [if_neg hmem]
        omega
  · rcases Signaled.mem_pending_send.1 hn with ⟨hold, -⟩ | ⟨rfl, -⟩
    · exact List.mem_append_left _ (h.sent n hold)
    · exact List.mem_append_right _ List.mem_cons_self
  · rcases append_singleton_cases heq with ⟨-, -, hx⟩ | ⟨rest, rfl, hold⟩
    · cases hx
      exact .inr (.inr (.inl (Signaled.mem_pending_send.2 (.inr ⟨rfl, hnotignored⟩))))
    · rcases h.kept pre rest hold with hold | hold | hold | hold
      · exact .inl (List.mem_append_left _ hold)
      · exact .inr (.inl hold)
      · exact .inr (.inr (.inl (hkeep (by decide) hold)))
      · exact .inr (.inr (.inr (hlife.2 hold)))
  · obtain ⟨hfirst, hlater⟩ := h.ended n (hlife.1 hn)
    exact ⟨fun hn n hmem => hfirst hn n (hinstalled n hmem), hlater⟩

/-- **A signal is delivered to the handler:** it is `SIGINT`, and `main` is
running.  What was pending is a call now. -/
theorem handle (h : Handled s done) {sig : ℕ} {entry : Catching} {mask : Finset ℕ}
    (hready : s.Ready sig) (hhandler : s.handler sig = some (entry, mask)) :
    Handled { s with
      pending := s.pending.erase sig
      place := entry
      frames := (s.place, s.blocked) :: s.frames
      blocked := s.blocked ∪ insert sig mask ∩ blockable } done := by
  obtain ⟨-, hinit, -⟩ | ⟨left, hleft, hmain⟩ | hin := h.stands.sides
  · rw [hinit] at hhandler
    cases hhandler
  · rw [hmain.handler] at hhandler
    obtain ⟨rfl, rfl, rfl⟩ := caughtBy_eq_some hhandler
    have hlife : s.life = .running := hready.2.2.resolve_right fun h => by cases h.2
    refine ⟨h.whole, ⟨rfl, ⟨⟨s.place, left, ?_, hleft, hmain.pieces⟩, ?_, hmain.handler⟩,
      ⟨hmain.printed.lines, hmain.printed.looks⟩⟩, ?_, fun n hn => ?_, h.seen,
      fun _ _ _ => .inr (.inl rfl), fun n hn => ?_⟩
    · rw [hmain.frames, hmain.blocked]
    · show s.blocked ∪ _ = _
      rw [hmain.blocked]
      decide
    · have hcount := h.count
      rw [if_pos hready.1, hmain.frames] at hcount
      show calls done + (_ :: s.frames).length + (if 2 ∈ s.pending.erase 2 then 1 else 0) ≤ _
      rw [if_neg (Finset.notMem_erase 2 _), hmain.frames]
      exact hcount
    · exact h.sent n (Finset.mem_of_mem_erase hn)
    · change s.life = _ at hn
      rw [hlife] at hn
      cases hn
  · rw [hin.handler] at hhandler
    obtain ⟨rfl, -⟩ := caughtBy_eq_some hhandler
    refine absurd ?_ hready.2.1
    rw [hin.blocked]
    decide

/-- **A signal is delivered that has no handler.**  It ends or stops the
process, or nothing comes of it; what is blocked is not delivered, so that no
look is concerned. -/
theorem default (h : Handled s done) {sig : ℕ} {life : Life} (hready : s.Ready sig)
    (hhandler : s.handler sig = none)
    (hlife : life = .ended sig ∧ byDefault sig = .terminate ∨
      life = .stopped ∧ byDefault sig = .stop ∨
      life = s.life ∧ (byDefault sig = .ignore ∨ byDefault sig = .resume)) :
    Handled { s with pending := s.pending.erase sig, life := life } done := by
  have hkeep : ∀ {n}, n ∈ s.blocked → n ∈ s.pending → n ∈ s.pending.erase sig := fun hn hpending =>
    Finset.mem_erase.2 ⟨fun heq => hready.2.1 (heq ▸ hn), hpending⟩
  have hnotinstalled : sig = 2 → ∀ n, .installed n ∉ s.events := by
    rintro rfl
    obtain ⟨-, -, hnone⟩ | ⟨left, -, hmain⟩ | hin := h.stands.sides
    · exact hnone
    · rw [hmain.handler] at hhandler
      cases hhandler
    · rw [hin.handler] at hhandler
      cases hhandler
  refine ⟨h.whole, ?_, ?_, fun n hn => h.sent n (Finset.mem_of_mem_erase hn), h.seen,
    fun pre post heq => ?_, fun n hn => ?_⟩
  · exact Stands.quiet h.stands rfl rfl rfl rfl rfl (fun _ => id) (fun n hn _ => hkeep hn)
      fun _ _ => .inl
  · refine le_trans (Nat.add_le_add_left ?_ _) h.count
    show (if 2 ∈ s.pending.erase sig then 1 else 0) ≤ _
    by_cases hmem : 2 ∈ s.pending.erase sig
    · rw [if_pos hmem, if_pos (Finset.mem_of_mem_erase hmem)]
    · rw [if_neg hmem]
      exact Nat.zero_le _
  · rcases h.kept pre post heq with hold | hold | hold | hold
    · exact .inl hold
    · exact .inr (.inl hold)
    · by_cases hsig : sig = 2
      · subst hsig
        rcases hlife with ⟨rfl, -⟩ | ⟨-, hdefault⟩ | ⟨-, hdefault | hdefault⟩
        · exact .inr (.inr (.inr rfl))
        · cases hdefault
        · cases hdefault
        · cases hdefault
      · exact .inr (.inr (.inl (Finset.mem_erase.2 ⟨fun heq => hsig heq.symm, hold⟩)))
    · rcases hready.2.2 with hrunning | ⟨hstopped, -⟩
      · rw [hrunning] at hold
        cases hold
      · rw [hstopped] at hold
        cases hold
  · rcases hlife with ⟨rfl, -⟩ | ⟨rfl, -⟩ | ⟨rfl, -⟩
    · cases hn
      refine ⟨hnotinstalled, fun hframes hmem => ?_⟩
      obtain ⟨hnone, -⟩ | ⟨left, -, hmain⟩ | hin := h.stands.sides
      · exact hframes hnone
      · exact hframes hmain.frames
      · refine hready.2.1 ?_
        rw [hin.blocked]
        exact hmem
    · cases hn
    · exact h.ended n hn

end Handled

/-- **The invariant holds in every run,** by induction on the steps: of the
program, of whoever sends signals, and of the kernel that delivers them. -/
theorem handled {s : Signaled Catching} (h : catchings.Reachable s) : ∃ done, Handled s done := by
  refine h.invariant (I := fun s => ∃ done, Handled s done) (fun s hs => ?_)
    (fun s s' _ ⟨done, hhandled⟩ hs => ?_)
  · rw [hs]
    refine ⟨[], nofun, ⟨rfl, rfl, rfl, rfl, ⟨rfl, rfl⟩, nofun⟩, le_rfl,
      fun sig h => absurd h (Finset.notMem_empty sig), .nil, fun pre post heq => ?_, nofun⟩
    cases pre <;> cases heq
  · obtain ⟨a, -, ha⟩ := hs
    cases Signaled.steps ha with
    | run hlife hs => exact hhandled.run hlife hs
    | send hsig => exact ⟨done, hhandled.send _⟩
    | handle hready hhandler => exact ⟨done, hhandled.handle hready hhandler⟩
    | default hready hhandler hlife => exact ⟨done, hhandled.default hready hhandler hlife⟩

/-- **A call of the handler is whole.**  What is printed is made of the pieces
of `main`'s report, in their order, and of calls, each of one line that says
`SIGINT` was caught and ten that show ever more of the signals 2 to 7.  Only
the last call may be cut short, while the handler is running in place of
`main`, once and not twice over, and then none of the signals 2 to 7 can be
what ended it.  A look shows those of them that were sent since that line, and
none that was not sent. -/
theorem handler_whole {s : Signaled Catching} (h : catchings.Reachable s) :
    ∃ done : List Chunk, (∀ c ∈ done, c.Whole) ∧ done.filterMap Chunk.piece? <+: report ∧
      Follows Seen s.events ∧
      (s.frames = [] ∧ Printed s done [] ∨
        (∃ l, s.frames = [(l, ∅)]) ∧ (∀ sig, s.life = .ended sig → sig ∉ meanwhile) ∧
          (Printed s done [] ∨ ∃ looks seen : List (Finset ℕ), looks.length ≤ 10 ∧
            looks.Pairwise (· ⊆ ·) ∧ (∀ S ∈ looks, S ⊆ meanwhile) ∧ seen.length ≤ 1 ∧
              Printed s (done ++ [.call looks]) seen)) := by
  obtain ⟨done, hhandled⟩ := handled h
  refine ⟨done, hhandled.whole, ?_, hhandled.seen, ?_⟩
  · obtain ⟨left, hpieces⟩ := hhandled.stands.report_eq
    exact ⟨left, hpieces⟩
  · rcases hhandled.stands.output with hmain | ⟨hin, houtput⟩
    · exact .inl hmain
    · obtain ⟨l, left, hframes, -⟩ := hin.frames
      refine .inr ⟨⟨l, hframes⟩, fun sig hsig => (hhandled.ended sig hsig).2 ?_, houtput⟩
      rw [hframes]
      exact List.cons_ne_nil _ _

/-- `SIGQUIT` while the handler is running is shown, and the handler goes on.
It will end the process once the handler returns. -/
theorem handler_whole_quit : ∃ s : Signaled Catching, catchings.Reachable s ∧
    s.events.filterMap Event.printed? = [caughtLine 2, showPending {3}] ∧
    ∃ done : List Chunk, (∀ c ∈ done, c.Whole) ∧ Follows Seen s.events := by
  have h₀ : catchings.Reachable (.new .sigaction) := .init rfl
  have h₁ := h₀.next (a := .run) rfl
  have h₂ := h₁.next (a := .send 2) rfl
  have h₃ := h₂.next (a := .deliver 2) rfl
  have h₄ := h₃.next (a := .run) rfl
  have h₅ := h₄.next (a := .send 3) rfl
  have h₆ := h₅.next (a := .run) rfl
  have h₇ := h₆.next (a := .run) rfl
  have h₈ := h₇.next (a := .run) rfl
  obtain ⟨done, hwhole, -, hseen, -⟩ := handler_whole h₈
  exact ⟨_, h₈, by decide, done, hwhole, hseen⟩

/-- **Each `SIGINT` is handled, though not each by a call of its own.**  There
are at most as many calls as were sent, not counting one that is still to come.
Behind each that was sent a call says so, is about to, or is still to come,
unless it was one that ended the process before `sigaction`. -/
theorem interrupts_handled {s : Signaled Catching} (h : catchings.Reachable s) :
    (s.events.filterMap Event.printed?).count (caughtLine 2) + (if 2 ∈ s.pending then 1 else 0) ≤
      s.events.count (.sent 2) ∧
    (∀ pre post, s.events = pre ++ .sent 2 :: post →
      .printed (caughtLine 2) ∈ post ∨ s.place = .caught 2 ∨ 2 ∈ s.pending ∨ s.life = .ended 2) ∧
    (s.life = .ended 2 → ∀ sig, .installed sig ∉ s.events) := by
  obtain ⟨done, hhandled⟩ := handled h
  refine ⟨?_, hhandled.kept, fun hlife => (hhandled.ended 2 hlife).1 rfl⟩
  have hpiece : ∀ bytes, .piece bytes ∈ done → bytes ∈ report := fun bytes hmem => by
    obtain ⟨left, hpieces⟩ := hhandled.stands.report_eq
    rw [← hpieces]
    exact List.mem_append_left _ (List.mem_filterMap.2 ⟨_, hmem, rfl⟩)
  have hcount := hhandled.count
  rcases hhandled.stands.output with ⟨-, hshown⟩ | ⟨hin, hshown | ⟨looks, seen, -, -, -, -, hshown⟩⟩
  · rw [hshown.lines, count_caughtLine hpiece]
    omega
  · rw [hshown.lines, count_caughtLine hpiece]
    omega
  · have hpiece' : ∀ bytes, .piece bytes ∈ done ++ [Chunk.call looks] → bytes ∈ report :=
      fun bytes hmem => by
        rcases List.mem_append.1 hmem with hold | hnew
        · exact hpiece bytes hold
        · cases List.mem_singleton.1 hnew
    obtain ⟨l, left, hframes, -⟩ := hin.frames
    have hcalls : calls (done ++ [.call looks]) = calls done + 1 := by
      rw [calls, List.countP_append]
      rfl
    rw [hshown.lines, count_caughtLine hpiece', hcalls]
    rw [hframes, List.length_singleton] at hcount
    omega

/-- One call, and another to come, where it was sent twice. -/
theorem interrupts_handled_twice : ∃ s : Signaled Catching, catchings.Reachable s ∧ 2 ∈ s.pending ∧
    (s.events.filterMap Event.printed?).count (caughtLine 2) = 1 ∧
    (s.events.filterMap Event.printed?).count (caughtLine 2) + 1 ≤ s.events.count (.sent 2) := by
  have h₀ : catchings.Reachable (.new .sigaction) := .init rfl
  have h₁ := h₀.next (a := .run) rfl
  have h₂ := h₁.next (a := .send 2) rfl
  have h₃ := h₂.next (a := .deliver 2) rfl
  have h₄ := h₃.next (a := .run) rfl
  have h₅ := h₄.next (a := .send 2) rfl
  exact ⟨_, h₅, by decide, by decide, (interrupts_handled h₅).1⟩

end MySignal
end OSNetWorkCode
