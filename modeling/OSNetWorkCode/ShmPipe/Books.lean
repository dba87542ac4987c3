/-
# Signals and lines

How many signals were waited for, how many are pending, and which lines they
announced, over all interleavings (`Books`).  The server may be any number of
signals behind, and what it prints may be any line or a part of one; but the
last signal is that of `quit`, and from then on the shared memory does not
change.  So the server that has taken it leaves, and as long as it has not, a
signal is pending for it even though the client is behind its loop
(`pending_of_done`).

The server may leave earlier: `quit` is in the shared memory before it is
signalled.  It does not, if it does not look just then (`onTime`,
`gone_of_onTime`).
-/

import OSNetWorkCode.ShmPipe.Delivery

namespace OSNetWorkCode
namespace ShmPipe

open CString

/-- How many signals the server has taken: it prints once for each. -/
def State.taken (s : State) : ℕ := s.printed.length + if s.server = .print then 1 else 0

/-- The lines that the client has read and how many of them it has signalled,
with where it stands and what it has put into the shared memory. -/
inductive Ledger : List Line → ℕ → Client → Shm → Prop
  | fresh : Ledger [] 0 .read .zeros
  | writing {before line client shm} (hw : Writing line client shm) :
      Ledger (before ++ [line]) before.length client shm
  | signalled {before line client shm rest} (hc : Signalled line client)
      (hmem : shm.mem = line.body ++ 0 :: rest) :
      Ledger (before ++ [line]) (before.length + 1) client shm

section ledger

variable {got : List Line} {n : ℕ} {s s' : State} {a : Action} {client : Client} {shm : Shm}

/-- No more lines are signalled than were read. -/
theorem Ledger.le (h : Ledger got n client shm) : n ≤ got.length := by
  cases h with
  | fresh => exact Nat.le_refl _
  | writing hw =>
    rw [List.length_append, List.length_singleton]
    omega
  | signalled hc hmem =>
    rw [List.length_append, List.length_singleton]

/-- The client reads one more line. -/
theorem Ledger.read (h : Ledger got n .read shm) (line : Line) :
    Ledger (got ++ [line]) n (.terminate (line.body.length + 1)) (shm.read line) := by
  obtain ⟨rest, hmem⟩ := read_mem shm line
  have hn : n = got.length := by
    cases h with
    | fresh => rfl
    | writing hw => cases hw
    | signalled hc hmem =>
      rw [List.length_append, List.length_singleton]
  rw [hn]
  exact .writing (.terminate hmem)

/-- The client terminates it. -/
theorem Ledger.terminate {k : ℕ} (h : Ledger got n (.terminate k) shm) :
    Ledger got n .signal (shm.terminate (k - 1)) := by
  cases h with
  | writing hw =>
    cases hw with
    | terminate hmem => exact .writing (.signal (terminate_mem hmem))
  | signalled hc hmem => cases hc

/-- The client signals it. -/
theorem Ledger.signal (h : Ledger got n .signal shm) : Ledger got (n + 1) .compare shm := by
  cases h with
  | writing hw =>
    cases hw with
    | signal hmem => exact .signalled .compare hmem
  | signalled hc hmem => cases hc

/-- The client looks whether it was `quit`, and leaves its loop just if it
was. -/
theorem Ledger.compare (h : Ledger got n .compare shm) :
    Ledger got n (if shm.isQuit then .done else .read) shm := by
  cases h with
  | writing hw => cases hw
  | @signalled before line client shm rest hc hmem =>
    refine .signalled ?_ hmem
    rw [isQuit_of_mem hmem]
    by_cases hquit : line.body = quit
    · rw [if_pos (decide_eq_true hquit)]
      exact .done hquit
    · rw [if_neg (by simpa using hquit)]
      exact .read hquit

/-- **Where the shared memory is the string `quit`,** the client has read that
line last and has terminated it.  No other line is that string, and one that is
not terminated is longer. -/
theorem Ledger.quit_read (h : Ledger got n client shm) (hquit : shm.isQuit = true) :
    ∃ before line, got = before ++ [line] ∧ line.body = quit ∧
      (client = .signal ∨ n = got.length ∧ (client = .compare ∨ client = .done)) := by
  cases h with
  | fresh =>
    have hzeros : Shm.zeros.isQuit = false := by
      refine decide_eq_false fun hstr => ?_
      have hnil : Shm.zeros.str = [] := rfl
      rw [hnil] at hstr
      cases hstr
    rw [hzeros] at hquit
    cases hquit
  | @writing before line client shm hw =>
    have hbody : line.body = quit := by
      by_contra hne
      rw [hw.not_quit hne] at hquit
      cases hquit
    refine ⟨before, line, rfl, hbody, .inl ?_⟩
    cases hw with
    | terminate hmem =>
      -- the newline is still there
      obtain ⟨more, hstr⟩ := str_of_newline hmem
      have hmore : newline ∈ quit := by
        rw [← of_decide_eq_true hquit, hstr]
        simp
      exact absurd hmore (by decide)
    | signal hmem => rfl
  | @signalled before line client shm rest hc hmem =>
    rw [isQuit_of_mem hmem, decide_eq_true_eq] at hquit
    refine ⟨before, line, rfl, hquit, .inr ⟨?_, ?_⟩⟩
    · rw [List.length_append, List.length_singleton]
    · cases hc with
      | compare => exact .inl rfl
      | read hne => exact absurd hquit hne
      | done _ => exact .inr rfl

/-- The client that has left its loop has signalled `quit`: it compares behind
the signal. -/
theorem Ledger.quit_of_done (h : Ledger got n .done shm) :
    ∃ before line, got = before ++ [line] ∧ line.body = quit ∧ n = got.length := by
  cases h with
  | writing hw => cases hw
  | @signalled before line client shm rest hc hmem =>
    cases hc with
    | done hquit =>
      refine ⟨before, line, rfl, hquit, ?_⟩
      rw [List.length_append, List.length_singleton]

/-- When all lines are read and signalled the shared memory is the string
`quit`, since nothing is written after it. -/
theorem Ledger.isQuit {x : Session} (h : Ledger x.typed x.typed.length client shm) :
    shm.isQuit = true := by
  obtain ⟨lines, hlines⟩ : ∃ lines, x.typed = lines := ⟨_, rfl⟩
  have hlast : ∀ before line, x.typed = before ++ [line] → line.body = quit := by
    intro before line htyped
    obtain ⟨-, hline⟩ := List.append_inj' (htyped : x.lines ++ [quitLine] = _) rfl
    rw [← List.singleton_inj.1 hline]
    rfl
  rw [hlines] at h hlast
  generalize hn : lines.length = n at h
  cases h with
  | fresh =>
    rw [Session.typed] at hlines
    simp at hlines
  | writing hw =>
    rw [List.length_append, List.length_singleton] at hn
    omega
  | @signalled before line client shm rest hc hmem =>
    rw [isQuit_of_mem hmem]
    exact decide_eq_true (hlast before line rfl)

end ledger

/-- **The books of a session:** the lines read and signalled, the signals taken
and pending, and the server does not wait any more when it has taken one for
each line. -/
structure Books (x : Session) (s : State) (got : List Line) (n : ℕ) : Prop where
  typed : x.typed = got ++ s.lines
  ledger : Ledger got n s.client s.shm
  balance : s.taken + s.signals = n
  leaves : s.taken = x.typed.length → s.server ≠ .wait

section books

variable {x : Session} {s s' : State} {a : Action} {got : List Line} {n : ℕ}

/-- No more lines are signalled than are typed. -/
theorem Books.le (h : Books x s got n) : n ≤ x.typed.length := by
  have hle := h.ledger.le
  rw [h.typed, List.length_append]
  omega

/-- **When the server has taken all signals the shared memory is the string
`quit`.**  The last of them came behind the last line, and nothing is written
over that. -/
theorem Books.isQuit (h : Books x s got n) (hall : s.taken = x.typed.length) :
    s.shm.isQuit = true := by
  have hle := h.ledger.le
  have hbalance := h.balance
  have htyped := h.typed
  have hledger := h.ledger
  have hlines : s.lines = [] := by
    rw [htyped, List.length_append] at hall
    exact List.length_eq_zero_iff.1 (by omega)
  rw [hlines, List.append_nil] at htyped
  have hn : n = x.typed.length := by
    rw [htyped] at hall ⊢
    omega
  rw [← htyped, hn] at hledger
  exact hledger.isQuit

/-- **Every step keeps the books.**  A signal is counted when it is made, and
again when it is taken. -/
theorem Books.step (h : Books x s got n) (hstep : Steps s a s') :
    ∃ got' n', Books x s' got' n' := by
  have hquit := h.isQuit
  obtain ⟨htyped, hledger, hbalance, hleaves⟩ := h
  cases hstep with
  | @read line lines hc hl =>
    rw [hc] at hledger
    refine ⟨got ++ [line], n, ?_, hledger.read line, hbalance, hleaves⟩
    rw [htyped, hl, List.append_assoc]
    rfl
  | terminate hc =>
    rw [hc] at hledger
    exact ⟨got, n, htyped, hledger.terminate, hbalance, hleaves⟩
  | signal hc =>
    rw [hc] at hledger
    exact ⟨got, n + 1, htyped, hledger.signal, congrArg (· + 1) hbalance, hleaves⟩
  | clientCompare hc =>
    rw [hc] at hledger
    exact ⟨got, n, htyped, hledger.compare, hbalance, hleaves⟩
  | @wait k hs hk =>
    refine ⟨got, n, htyped, hledger, ?_, nofun⟩
    rw [State.taken, hs, if_neg nofun, hk] at hbalance
    rw [State.taken, if_pos rfl]
    show s.printed.length + 1 + k = n
    omega
  | print hs =>
    refine ⟨got, n, htyped, hledger, ?_, nofun⟩
    rw [State.taken, hs, if_pos rfl] at hbalance
    rw [State.taken, if_neg nofun, List.length_append, List.length_singleton]
    exact hbalance
  | serverCompare hs =>
    have htaken : State.taken { s with server := if s.shm.isQuit then .done else .wait } =
        s.taken := by
      have hne : (if s.shm.isQuit then Server.done else .wait) ≠ .print := by
        split_ifs <;> nofun
      have hcompare : s.server ≠ .print := by
        rw [hs]
        nofun
      rw [State.taken, State.taken, if_neg hne, if_neg hcompare]
    refine ⟨got, n, htyped, hledger, by rw [htaken]; exact hbalance, fun hall => ?_⟩
    rw [htaken] at hall
    show (if s.shm.isQuit then Server.done else .wait) ≠ .wait
    rw [if_pos (hquit hall)]
    nofun

/-- **The books are kept in every run,** whatever the guard on its steps.  The
theorems about runs that are on time use them as well as those about all
runs. -/
theorem books {ok : State → Action → Bool} (hs : (sys ok x).Reachable s) :
    ∃ got n, Books x s got n := by
  refine hs.invariant (I := fun s => ∃ got n, Books x s got n) ?_ ?_
  · rintro _ rfl
    refine ⟨[], 0, rfl, .fresh, rfl, fun hall => ?_⟩
    change 0 = (x.lines ++ [quitLine]).length at hall
    rw [List.length_append, List.length_singleton] at hall
    omega
  · rintro s s' - ⟨got, n, h⟩ ⟨a, -, hstep⟩
    exact h.step (steps hstep)

/-- The client that has left its loop has signalled all lines: `quit` is the
last one that is typed. -/
theorem Books.all_of_done (h : Books x s got n) (hc : s.client = .done) :
    n = x.typed.length := by
  have hledger := h.ledger
  rw [hc] at hledger
  obtain ⟨before, line, rfl, hquit, hn⟩ := hledger.quit_of_done
  have hlines : s.lines = [] := Session.last h.typed hquit
  rw [hn, h.typed, hlines, List.append_nil]

/-- **A server that waits has a signal pending** when the client is behind its
loop: if it had taken all of them it would have seen `quit` and not wait. -/
theorem Books.pending_of_done (h : Books x s got n) (hc : s.client = .done)
    (hw : s.server = .wait) : 0 < s.signals := by
  have hbalance := h.balance
  rw [h.all_of_done hc] at hbalance
  by_contra hzero
  exact h.leaves (by omega) hw

/-- The server prints no more often than there are lines. -/
theorem Books.taken_le (h : Books x s got n) : s.taken ≤ x.typed.length := by
  have hbalance := h.balance
  have hle := h.le
  omega

end books

/-! ### When the server leaves -/

/-- The server does not look for `quit` between the client's terminating the
last line and its signalling it. -/
def onTime (s : State) : Action → Bool
  | .serverCompare => ¬ (s.client = .signal ∧ s.lines = [])
  | _ => true

/-- The server that has left its loop has done so after the client signalled
the last line. -/
def Gone (s : State) : Prop :=
  s.server = .done → s.lines = [] ∧ (s.client = .compare ∨ s.client = .done)

section gone

variable {x : Session} {s s' : State} {a : Action} {got : List Line} {n : ℕ}

/-- **A step on time keeps it that the server is gone only after the last
signal.**  The server leaves where it finds `quit`; that it does not look
between the terminating and the signalling of the last line is what `onTime`
says. -/
theorem Gone.step (hgone : Gone s) (h : Books x s got n) (hok : onTime s a = true)
    (hstep : Steps s a s') : Gone s' := by
  cases hstep with
  | read hc hl =>
    intro hs
    rw [(hgone hs).1] at hl
    cases hl
  | terminate hc =>
    intro hs
    rcases (hgone hs).2 with h' | h' <;> cases hc.symm.trans h'
  | signal hc =>
    intro hs
    rcases (hgone hs).2 with h' | h' <;> cases hc.symm.trans h'
  | clientCompare hc =>
    intro hs
    obtain ⟨hlines, -⟩ := hgone hs
    have hledger := h.ledger
    have htyped := h.typed
    refine ⟨hlines, .inr ?_⟩
    -- the last line was signalled, so it is in the shared memory
    rw [hlines, List.append_nil] at htyped
    have hn : n = got.length := by
      rw [hc] at hledger
      cases hledger with
      | writing hw => cases hw
      | signalled _ _ =>
        rw [List.length_append, List.length_singleton]
    rw [hn, ← htyped] at hledger
    show (if s.shm.isQuit then Client.done else .read) = .done
    rw [if_pos hledger.isQuit]
  | wait hs hn => exact nofun
  | print hs => exact nofun
  | serverCompare hs =>
    intro hdone
    change (if s.shm.isQuit then Server.done else .wait) = .done at hdone
    have hquit : s.shm.isQuit = true := by
      by_contra hne
      rw [if_neg hne] at hdone
      cases hdone
    obtain ⟨before, line, rfl, hbody, hclient⟩ := h.ledger.quit_read hquit
    have hlines : s.lines = [] := Session.last h.typed hbody
    rcases hclient with hc | ⟨-, hc⟩
    · exact absurd ⟨hc, hlines⟩ (of_decide_eq_true hok)
    · exact ⟨hlines, hc⟩

/-- **Who looks on time leaves on time,** in every run in which the server does
so. -/
theorem gone_of_onTime (hs : (sys onTime x).Reachable s) : Gone s := by
  refine hs.invariant (I := Gone) ?_ ?_
  · rintro _ rfl
    exact nofun
  · rintro s s' hs hgone ⟨a, hok, hstep⟩
    obtain ⟨got, n, h⟩ := books hs
    exact hgone.step h hok (steps hstep)

end gone

end ShmPipe
end OSNetWorkCode
