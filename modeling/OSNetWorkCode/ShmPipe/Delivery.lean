/-
# Which lines reach the reader

The FIFO wakes the server, but nothing tells the client that a line was
printed.  The client that types two lines before the server has printed the
first overwrites it, and the first is lost (`lost`); a server that looks for
`quit` a moment too late finds a line it has not printed.

A line is read in time (`inTime`) if no signal is pending, the server is not
about to print, and if it is about to look for `quit` the line is another one.
In a run in which all lines are, the client and the server take turns
(`Stage`): at most one line is on its way, and it is in the shared memory until
it was printed.
-/

import OSNetWorkCode.ShmPipe.Model

namespace OSNetWorkCode
namespace ShmPipe

open CString

/-- The next line is read only after the last one was printed, and `quit` only
after the server has also looked at it. -/
def inTime (s : State) : Action → Bool
  | .read => s.signals = 0 &&
      match s.server with
      | .print => false
      | .compare => (s.lines.head?.map Line.body ≠ some quit : Bool)
      | _ => true
  | _ => true

/-- The server will not take `line` for the `quit` of an earlier look. -/
def Looks (line : Line) (server : Server) : Prop :=
  server = .wait ∨ server = .compare ∧ line.body ≠ quit

/-- The client is putting `line` into the shared memory. -/
inductive Writing (line : Line) : Client → Shm → Prop
  | terminate {shm rest} (h : shm.mem = line.body ++ newline :: rest) :
      Writing line (.terminate (line.body.length + 1)) shm
  | signal {shm rest} (h : shm.mem = line.body ++ 0 :: rest) : Writing line .signal shm

/-- The client has signalled `line`. -/
inductive Signalled (line : Line) : Client → Prop
  | compare : Signalled line .compare
  | read (h : line.body ≠ quit) : Signalled line .read
  | done (h : line.body = quit) : Signalled line .done

/-- How far the server is with the last line signalled: the signals pending,
where it stands, and whether the line was printed. -/
inductive Served (line : Line) : ℕ → Server → Bool → Prop
  | pending {server} (h : Looks line server) : Served line 1 server false
  | woken : Served line 0 .print false
  | printed : Served line 0 .compare true
  | idle (h : line.body ≠ quit) : Served line 0 .wait true
  | done (h : line.body = quit) : Served line 0 .done true

/-- **How client and server take turns,** with the lines read so far.  Before
the last of them all lines are printed. -/
inductive Stage : List Line → State → Prop
  | fresh {lines shm} : Stage [] ⟨lines, shm, 0, .read, .wait, []⟩
  | writing {before line lines shm client server} (hw : Writing line client shm)
      (hl : Looks line server) :
      Stage (before ++ [line]) ⟨lines, shm, 0, client, server, before.map Line.body⟩
  | signalled {before line lines shm rest n client server shown} (hc : Signalled line client)
      (hshm : shm.mem = line.body ++ 0 :: rest) (hs : Served line n server shown) :
      Stage (before ++ [line]) ⟨lines, shm, n, client, server,
        (before ++ if shown then [line] else []).map Line.body⟩

section stage

variable {taken : List Line} {s s' : State} {a : Action} {line : Line} {shm : Shm}

/-- A line that is being written is not `quit` for a server that looks now:
before it is terminated it has a newline in it, and then it is the line. -/
theorem Writing.not_quit {client : Client} (h : Writing line client shm)
    (hne : line.body ≠ quit) : shm.isQuit = false := by
  cases h with
  | terminate h =>
    obtain ⟨more, hstr⟩ := str_of_newline h
    refine decide_eq_false fun hquit => ?_
    have hmem : newline ∈ quit := by
      rw [← hquit, hstr]
      simp
    exact absurd hmem (by decide)
  | signal h =>
    rw [isQuit_of_mem h]
    exact decide_eq_false hne

/-- The next line read after all of `taken` were printed. -/
theorem Stage.next {line : Line} {lines : List Line} {server : Server} (hl : Looks line server) :
    Stage (taken ++ [line]) ⟨lines, shm.read line, 0, .terminate (line.body.length + 1), server,
      taken.map Line.body⟩ := by
  obtain ⟨rest, hmem⟩ := read_mem shm line
  exact .writing (.terminate hmem) hl

/-- The last line signalled was not printed yet. -/
theorem Stage.unseen {before lines : List Line} {client : Client} {server : Server} {n : ℕ}
    {rest : List UInt8} (hc : Signalled line client) (hshm : shm.mem = line.body ++ 0 :: rest)
    (hs : Served line n server false) :
    Stage (before ++ [line]) ⟨lines, shm, n, client, server, before.map Line.body⟩ := by
  have hstage : Stage (before ++ [line]) ⟨lines, shm, n, client, server,
      (before ++ if false then [line] else []).map Line.body⟩ := .signalled hc hshm hs
  rwa [if_neg Bool.false_ne_true, List.append_nil] at hstage

/-- The last line signalled was printed. -/
theorem Stage.seen {before lines : List Line} {client : Client} {server : Server} {n : ℕ}
    {rest : List UInt8} (hc : Signalled line client) (hshm : shm.mem = line.body ++ 0 :: rest)
    (hs : Served line n server true) :
    Stage (before ++ [line]) ⟨lines, shm, n, client, server,
      (before ++ [line]).map Line.body⟩ :=
  .signalled hc hshm hs

/-- The client reads a line in time: all lines before it are printed, so that
overwriting the last one loses nothing. -/
theorem Stage.read (h : Stage taken s) (hok : inTime s .read = true) (hc : s.client = .read)
    {lines : List Line} (hl : s.lines = line :: lines) :
    Stage (taken ++ [line]) { s with
      lines := lines, shm := s.shm.read line, client := .terminate (line.body.length + 1) } := by
  simp only [inTime, hl, List.head?_cons, Option.map_some, Bool.and_eq_true,
    decide_eq_true_eq] at hok
  cases h with
  | fresh => exact .next (.inl rfl)
  | writing hw => cases hw <;> cases hc
  | @signalled before last lines shm rest n client server shown hc' hshm hs =>
    cases hs with
    | pending h => exact absurd hok.1 (by simp)
    | woken => exact absurd hok.2 (by simp)
    | printed =>
      have hne : line.body ≠ quit := by simpa using hok.2
      exact .next (.inr ⟨rfl, hne⟩)
    | idle h => exact .next (.inl rfl)
    | done h =>
      obtain rfl : client = .read := hc
      cases hc' with
      | read hne => exact absurd h hne

/-- The client terminates the line it has read. -/
theorem Stage.terminate (h : Stage taken s) {n : ℕ} (hc : s.client = .terminate n) :
    Stage taken { s with shm := s.shm.terminate (n - 1), client := .signal } := by
  cases h with
  | fresh => cases hc
  | writing hw hl =>
    cases hw with
    | terminate h =>
      cases hc
      exact .writing (.signal (terminate_mem h)) hl
    | signal h => cases hc
  | signalled hc' hshm hs => cases hc' <;> cases hc

/-- The client signals the line, and the signal is the only one pending: the
line before was taken, or there was none. -/
theorem Stage.signal (h : Stage taken s) (hc : s.client = .signal) :
    Stage taken { s with signals := s.signals + 1, client := .compare } := by
  cases h with
  | fresh => cases hc
  | writing hw hl =>
    cases hw with
    | terminate h => cases hc
    | signal h => exact .unseen .compare h (.pending hl)
  | signalled hc' hshm hs => cases hc' <;> cases hc

/-- The client looks whether the line was `quit`.  The server does not change
what it looks at. -/
theorem Stage.clientCompare (h : Stage taken s) (hc : s.client = .compare) :
    Stage taken { s with client := if s.shm.isQuit then .done else .read } := by
  cases h with
  | fresh => cases hc
  | writing hw hl => cases hw <;> cases hc
  | @signalled before line lines shm rest n client server shown hc' hshm hs =>
    refine .signalled ?_ hshm hs
    show Signalled line (if shm.isQuit = true then .done else .read)
    rw [isQuit_of_mem hshm]
    by_cases hquit : line.body = quit
    · rw [if_pos (decide_eq_true hquit)]
      exact .done hquit
    · rw [if_neg (by simpa using hquit)]
      exact .read hquit

/-- The server takes a signal: the one of the last line, which it has not
printed yet. -/
theorem Stage.wait (h : Stage taken s) {n : ℕ} (hn : s.signals = n + 1) :
    Stage taken { s with signals := n, server := .print } := by
  cases h with
  | fresh => cases hn
  | writing hw hl => cases hn
  | signalled hc hshm hserved =>
    cases hserved with
    | pending h =>
      cases hn
      exact .signalled hc hshm .woken
    | woken | printed | idle h | done h => cases hn

/-- The server prints, and it is the last line, whole: nothing was written over
it since it was signalled. -/
theorem Stage.print (h : Stage taken s) (hs : s.server = .print) :
    Stage taken { s with printed := s.printed ++ [s.shm.str], server := .compare } := by
  cases h with
  | fresh => cases hs
  | writing hw hl => rcases hl with rfl | ⟨rfl, -⟩ <;> cases hs
  | signalled hc hshm hserved =>
    cases hserved with
    | pending h => rcases h with rfl | ⟨rfl, -⟩ <;> cases hs
    | woken => simpa [str_of_mem hshm] using Stage.seen hc hshm .printed
    | printed | idle h | done h => cases hs

/-- The server looks whether what it has printed was `quit`.  If the client is
writing the next line already, that one is not. -/
theorem Stage.serverCompare (h : Stage taken s) (hs : s.server = .compare) :
    Stage taken { s with server := if s.shm.isQuit then .done else .wait } := by
  cases h with
  | fresh => cases hs
  | @writing before line lines shm client server hw hl =>
    rcases hl with rfl | ⟨rfl, hne⟩
    · cases hs
    · show Stage _ ⟨lines, shm, 0, client, if shm.isQuit = true then .done else .wait, _⟩
      rw [if_neg (by rw [hw.not_quit hne]; exact Bool.false_ne_true)]
      exact .writing hw (.inl rfl)
  | @signalled before line lines shm rest n client server shown hc hshm hserved =>
    refine .signalled hc hshm ?_
    show Served line n (if shm.isQuit = true then .done else .wait) shown
    rw [isQuit_of_mem hshm]
    cases hserved with
    | pending h =>
      rcases h with rfl | ⟨rfl, hne⟩
      · cases hs
      · rw [if_neg (by simpa using hne)]
        exact .pending (.inl rfl)
    | printed =>
      by_cases hq : line.body = quit
      · rw [if_pos (by simpa using hq)]
        exact .done hq
      · rw [if_neg (by simpa using hq)]
        exact .idle hq
    | woken | idle h | done h => cases hs

/-- **A step in time goes from stage to stage.**  Only reading a line needs the
condition, for a new line is written over the one that the server has not
looked at. -/
theorem Stage.step (h : Stage taken s) (hok : inTime s a = true) (hstep : Steps s a s') :
    ∃ more, s.lines = more ++ s'.lines ∧ Stage (taken ++ more) s' := by
  have hstay : Stage taken s' → s'.lines = s.lines →
      ∃ more, s.lines = more ++ s'.lines ∧ Stage (taken ++ more) s' := fun h' hlines =>
    ⟨[], hlines.symm, by rwa [List.append_nil]⟩
  cases hstep with
  | read hc hl => exact ⟨[_], hl, h.read hok hc hl⟩
  | terminate hc => exact hstay (h.terminate hc) rfl
  | signal hc => exact hstay (h.signal hc) rfl
  | clientCompare hc => exact hstay (h.clientCompare hc) rfl
  | wait hs hn => exact hstay (h.wait hn) rfl
  | print hs => exact hstay (h.print hs) rfl
  | serverCompare hs => exact hstay (h.serverCompare hs) rfl

end stage

section delivered

variable {x : Session} {s s' : State}

/-- Nothing is typed after `quit`, since no line before it is that.  So who has
found `quit` has found the last line. -/
theorem Session.last {before rest : List Line} {line : Line}
    (h : x.typed = before ++ [line] ++ rest) (hquit : line.body = quit) : rest = [] := by
  rcases List.eq_nil_or_concat rest with hnil | ⟨rest', last, rfl⟩
  · exact hnil
  · rw [List.concat_eq_append, ← List.append_assoc] at h
    have hlines : x.lines = before ++ [line] ++ rest' := (List.append_inj' h rfl).1
    exact absurd hquit (x.others line (by rw [hlines]; simp))

/-- **Client and server take turns in every run whose lines are read in
time.** -/
theorem stage_of_inTime (hs : (sys inTime x).Reachable s) :
    ∃ taken, x.typed = taken ++ s.lines ∧ Stage taken s := by
  refine hs.invariant (I := fun s => ∃ taken, x.typed = taken ++ s.lines ∧ Stage taken s) ?_ ?_
  · rintro _ rfl
    exact ⟨[], rfl, .fresh⟩
  · rintro s s' - ⟨taken, htyped, hstage⟩ ⟨a, hok, hstep⟩
    obtain ⟨more, hlines, hstage'⟩ := hstage.step hok (steps hstep)
    exact ⟨taken ++ more, by rw [htyped, hlines, List.append_assoc], hstage'⟩

/-- **Lines read in time are all delivered:** at every stage the lines before
the last one are printed. -/
theorem delivered_of_inTime (hs : (sys inTime x).Reachable s) : Delivered x s := by
  obtain ⟨taken, htyped, hstage⟩ := stage_of_inTime hs
  unfold Delivered
  rw [htyped]
  cases hstage with
  | fresh => exact ⟨List.nil_prefix, nofun⟩
  | @writing before line lines shm client server hw hl =>
    refine ⟨?_, ?_⟩
    · rw [List.append_assoc, List.map_append]
      exact List.prefix_append ..
    · rcases hl with rfl | ⟨rfl, -⟩ <;> exact nofun
  | @signalled before line lines shm rest n client server shown hc hshm hserved =>
    refine ⟨?_, ?_⟩
    · rw [List.append_assoc, List.map_append, List.map_append]
      refine List.prefix_append_right_inj .. |>.2 ?_
      cases shown with
      | false => exact List.nil_prefix
      | true =>
        rw [List.map_append]
        exact List.prefix_append ..
    · rintro rfl
      cases hserved with
      | pending h => rcases h with h | ⟨h, -⟩ <;> cases h
      | done hquit =>
        show _ = ((before ++ [line]) ++ lines).map Line.body
        have hnil : lines = [] := Session.last htyped hquit
        rw [hnil, List.append_nil]
        rfl

/-- **Where two lines are typed the first can be lost:** the client reads the
second before the server has printed. -/
theorem lost (h : x.lines ≠ []) : ∃ s, (runs x).Reachable s ∧ ¬ Delivered x s := by
  obtain ⟨line, rest, hrest⟩ := List.exists_cons_of_ne_nil h
  obtain ⟨next, lines, htyped⟩ : ∃ next lines, x.typed = line :: next :: lines := by
    rw [Session.typed, hrest]
    cases rest with
    | nil => exact ⟨quitLine, [], rfl⟩
    | cons next rest => exact ⟨next, rest ++ [quitLine], rfl⟩
  have hline : line.body ≠ quit := x.others line (by rw [hrest]; exact .head _)
  obtain ⟨shm₁, hshm₁⟩ : ∃ shm : Shm, (Shm.zeros.read line).terminate line.body.length = shm :=
    ⟨_, rfl⟩
  obtain ⟨rest₁, hmem₁⟩ := read_mem .zeros line
  have h₀ : (runs x).Reachable ⟨line :: next :: lines, .zeros, 0, .read, .wait, []⟩ := by
    rw [← htyped]
    exact .init rfl
  have h₁ := h₀.next (a := .read) rfl
  have h₂ := h₁.next (a := .terminate) rfl
  have h₃ := h₂.next (a := .signal) rfl
  have h₄ := h₃.next (a := .clientCompare) rfl
  have hcompare : shm₁.isQuit = false := by
    rw [← hshm₁, isQuit_of_mem (terminate_mem hmem₁)]
    exact decide_eq_false hline
  simp only [Nat.add_sub_cancel, hshm₁, hcompare] at h₄
  have h₅ := h₄.next (a := .read) rfl
  obtain ⟨rest₂, hmem⟩ := read_mem shm₁ next
  have hfirst : ∀ printed : List UInt8, printed ≠ line.body →
      ¬ [printed] <+: x.typed.map Line.body := by
    intro printed hne hprefix
    rw [htyped, List.map_cons] at hprefix
    exact hne (List.cons_prefix_cons.1 hprefix).1
  by_cases hsame : next.body = line.body
  · -- printed before the terminator, the line is followed by what was there before
    have h₆ := h₅.next (a := .wait) rfl
    have h₇ := h₆.next (a := .print) rfl
    obtain ⟨more, hstr⟩ := str_of_newline hmem
    refine ⟨_, h₇, fun hdelivered => hfirst _ ?_ hdelivered.1⟩
    intro heq
    have hlength := congrArg List.length heq
    rw [hstr, ← hsame, List.length_append, List.length_cons] at hlength
    omega
  · have h₆ := h₅.next (a := .terminate) rfl
    have h₇ := h₆.next (a := .wait) rfl
    have h₈ := h₇.next (a := .print) rfl
    have hstr : ((shm₁.read next).terminate (next.body.length + 1 - 1)).str = next.body := by
      rw [Nat.add_sub_cancel]
      exact str_of_mem (terminate_mem hmem)
    refine ⟨_, h₈, fun hdelivered => hfirst _ ?_ hdelivered.1⟩
    rw [hstr]
    exact hsame

/-- Where only `quit` is typed it is read in time, for there is nothing it
could overwrite: no line was taken before it. -/
theorem inTime_of_nil (h : x.lines = []) (hs : (runs x).Reachable s) :
    (sys inTime x).Reachable s := by
  refine hs.admitted fun s a s' hs hstep => ?_
  obtain ⟨taken, htyped, hstage⟩ := stage_of_inTime hs
  cases steps hstep with
  | @read line lines hc hl =>
    have hlength := congrArg List.length htyped
    rw [Session.typed, h, hl, List.length_append, List.length_append, List.length_cons] at hlength
    have hnil : taken = [] := List.length_eq_zero_iff.1 (by simp at hlength; omega)
    subst hnil
    generalize htaken : ([] : List Line) = taken at hstage
    cases hstage with
    | fresh => rfl
    | writing => simp at htaken
    | signalled => simp at htaken
  | _ => rfl

/-- **When every line arrives.**  In every run in which each line is read in
time the server prints the lines typed, each once and in order, and all of them
when it leaves its loop.  Whatever the interleaving, that is so if and only if
nothing is typed but `quit`. -/
theorem every_line_arrives (x : Session) :
    (∀ s, (sys inTime x).Reachable s → Delivered x s) ∧
      ((∀ s, (runs x).Reachable s → Delivered x s) ↔ x.lines = []) := by
  refine ⟨fun s hs => delivered_of_inTime hs, fun h => ?_, fun h s hs => ?_⟩
  · by_contra hne
    obtain ⟨s, hs, hlost⟩ := lost hne
    exact hlost (h s hs)
  · exact delivered_of_inTime (inTime_of_nil h hs)

end delivered

/-- The lines `a` and `b`, then `quit`. -/
def ab : Session where
  lines := [⟨[97], by decide, by decide⟩, ⟨[98], by decide, by decide⟩]
  others := by decide

/-- The client types `a` and the server prints it. -/
theorem every_line_arrives_ab :
    ∃ s, (sys inTime ab).Reachable s ∧ s.printed = [[97]] ∧ Delivered ab s := by
  have h₀ : (sys inTime ab).Reachable ab.start := .init rfl
  have h₁ : (sys inTime ab).Reachable _ := .step h₀ ⟨.read, rfl, rfl⟩
  have h₂ : (sys inTime ab).Reachable _ := .step h₁ ⟨.terminate, rfl, rfl⟩
  have h₃ : (sys inTime ab).Reachable _ := .step h₂ ⟨.signal, rfl, rfl⟩
  have h₄ : (sys inTime ab).Reachable _ := .step h₃ ⟨.wait, rfl, rfl⟩
  have h₅ : (sys inTime ab).Reachable _ := .step h₄ ⟨.print, rfl, rfl⟩
  exact ⟨_, h₅, rfl, (every_line_arrives ab).1 _ h₅⟩

/-- **`a` is lost:** the client types `a` and `b` before the server prints. -/
theorem ab_lost : ∃ s, (runs ab).Reachable s ∧ ¬ Delivered ab s :=
  lost (by decide)

end ShmPipe
end OSNetWorkCode
