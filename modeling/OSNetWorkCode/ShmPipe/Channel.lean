/-
# The two ends of the FIFO

The same two programs from the moment both ends of the FIFO are open until both
have returned.  Here the FIFO holds bytes, any number of them, so that `Signal`
never blocks on a full FIFO and the client can type as far ahead of the server
as it likes (`typed_ahead`).  It is a write that raises `SIGPIPE` when no read
end is left, and that kills the client; `Wait` is a read that waits for bytes,
but returns without any when no write end is left, and then its assertion
fails.

Up to that the loops are those of `Model`, and whole tokens are what is counted
there (`refines`).  So what holds of the loops in every interleaving settles
what becomes of the ends: the server never reads the end of the FIFO
(`server_never_starves`), and the client is spared where the server is on time
(`client_spared`).
-/

import OSNetWorkCode.ShmPipe.Books

namespace OSNetWorkCode
namespace ShmPipe
namespace Channel

open CString

/-- `sizeof(uint32_t)`. -/
def tokenSize : ℕ := 4

/-- `uint32_t temp = 1`, byte by byte as the machine stores it. -/
def token : List UInt8 := [1, 0, 0, 0]

/-- Where the client stands. -/
inductive Client
  | read
  /-- `read` returned `s`. -/
  | terminate (s : ℕ)
  | signal
  | compare
  /-- Before `CloseFIFO`. -/
  | close
  /-- Before `shmdt`. -/
  | detach
  | done
  /-- `SIGPIPE`. -/
  | killed
  deriving DecidableEq

/-- Where the server stands. -/
inductive Server
  | wait
  | print
  | compare
  /-- Before `shmdt` and `shmctl`. -/
  | detach
  /-- Before `CloseFIFO`. -/
  | close
  | done
  /-- The assertion in `Wait` failed. -/
  | aborted
  deriving DecidableEq

/-- The client's end of the FIFO is open. -/
def Client.writes : Client → Bool
  | .detach | .done | .killed => false
  | _ => true

/-- The server's end of the FIFO is open. -/
def Server.reads : Server → Bool
  | .done | .aborted => false
  | _ => true

/-- The lines not yet typed, the shared memory, the bytes in the FIFO, the two
programs, and what the server has printed. -/
structure State where
  lines : List Line
  shm : Shm
  fifo : List UInt8
  client : Client
  server : Server
  printed : List (List UInt8)

/-- Whose turn it is, and what for. -/
inductive Action
  | read
  | terminate
  | signal
  | clientCompare
  | clientClose
  | clientDetach
  | wait
  | print
  | serverCompare
  | serverDetach
  | serverClose
  deriving DecidableEq

/-- One step of the client or the server. -/
def State.step (s : State) : Action → Option State
  | .read =>
    match s.client, s.lines with
    | .read, line :: lines => some { s with
        lines := lines, shm := s.shm.read line, client := .terminate (line.body.length + 1) }
    | _, _ => none
  | .terminate =>
    match s.client with
    | .terminate n => some { s with shm := s.shm.terminate (n - 1), client := .signal }
    | _ => none
  | .signal =>
    match s.client with
    | .signal =>
      if s.server.reads then some { s with fifo := s.fifo ++ token, client := .compare }
      else some { s with client := .killed }
    | _ => none
  | .clientCompare =>
    match s.client with
    | .compare => some { s with client := if s.shm.isQuit then .close else .read }
    | _ => none
  | .clientClose =>
    match s.client with
    | .close => some { s with client := .detach }
    | _ => none
  | .clientDetach =>
    match s.client with
    | .detach => some { s with client := .done }
    | _ => none
  | .wait =>
    match s.server with
    | .wait =>
      -- `read` blocks on an empty FIFO that may still be written to
      if s.fifo = [] ∧ s.client.writes then none
      else some { s with
        fifo := s.fifo.drop tokenSize
        server := if (s.fifo.take tokenSize).length = tokenSize then .print else .aborted }
    | _ => none
  | .print =>
    match s.server with
    | .print => some { s with printed := s.printed ++ [s.shm.str], server := .compare }
    | _ => none
  | .serverCompare =>
    match s.server with
    | .compare => some { s with server := if s.shm.isQuit then .detach else .wait }
    | _ => none
  | .serverDetach =>
    match s.server with
    | .detach => some { s with server := .close }
    | _ => none
  | .serverClose =>
    match s.server with
    | .close => some { s with server := .done }
    | _ => none

/-- Both ends are open, and both programs are about to enter their loops. -/
def start (x : Session) : State := ⟨x.typed, .zeros, [], .read, .wait, []⟩

/-- The runs in which every step is one that `ok` admits. -/
def sys (ok : State → Action → Bool) (x : Session) : System State :=
  System.along (fun s => s = start x) State.step ok

/-- All runs. -/
abbrev runs (x : Session) : System State := sys System.anything x

/-! ### The loops -/

/-- Where the client is in its loop; one that is killed stays where it was.
What it does behind the loop is no part of it. -/
def Client.loop : Client → ShmPipe.Client
  | .read => .read
  | .terminate n => .terminate n
  | .signal | .killed => .signal
  | .compare => .compare
  | .close | .detach | .done => .done

/-- Where the server is in its loop. -/
def Server.loop : Server → ShmPipe.Server
  | .wait | .aborted => .wait
  | .print => .print
  | .compare => .compare
  | .detach | .close | .done => .done

/-- The loops alone, with the tokens counted. -/
def State.loops (s : State) : ShmPipe.State :=
  ⟨s.lines, s.shm, s.fifo.length / tokenSize, s.client.loop, s.server.loop, s.printed⟩

/-- The steps, listed. -/
inductive Steps (s : State) : Action → State → Prop
  | read {line lines} (hc : s.client = .read) (hl : s.lines = line :: lines) :
      Steps s .read { s with
        lines := lines, shm := s.shm.read line, client := .terminate (line.body.length + 1) }
  | terminate {n} (hc : s.client = .terminate n) :
      Steps s .terminate { s with shm := s.shm.terminate (n - 1), client := .signal }
  | signal (hc : s.client = .signal) (hr : s.server.reads = true) :
      Steps s .signal { s with fifo := s.fifo ++ token, client := .compare }
  | sigpipe (hc : s.client = .signal) (hr : s.server.reads = false) :
      Steps s .signal { s with client := .killed }
  | clientCompare (hc : s.client = .compare) :
      Steps s .clientCompare { s with client := if s.shm.isQuit then .close else .read }
  | clientClose (hc : s.client = .close) : Steps s .clientClose { s with client := .detach }
  | clientDetach (hc : s.client = .detach) : Steps s .clientDetach { s with client := .done }
  | wait (hs : s.server = .wait) (hf : tokenSize ≤ s.fifo.length) :
      Steps s .wait { s with fifo := s.fifo.drop tokenSize, server := .print }
  | fail (hs : s.server = .wait) (hf : s.fifo.length < tokenSize)
      (hw : s.fifo = [] → s.client.writes = false) :
      Steps s .wait { s with fifo := s.fifo.drop tokenSize, server := .aborted }
  | print (hs : s.server = .print) :
      Steps s .print { s with printed := s.printed ++ [s.shm.str], server := .compare }
  | serverCompare (hs : s.server = .compare) :
      Steps s .serverCompare { s with server := if s.shm.isQuit then .detach else .wait }
  | serverDetach (hs : s.server = .detach) : Steps s .serverDetach { s with server := .close }
  | serverClose (hs : s.server = .close) : Steps s .serverClose { s with server := .done }

/-- **What `step` makes is one of the steps.**  The proofs about runs are by
cases on these. -/
theorem steps {s s' : State} {a : Action} (h : s.step a = some s') : Steps s a s' := by
  cases a with
  | read =>
    simp only [State.step] at h
    split at h
    · rename_i line lines hc hl
      obtain rfl := Option.some.inj h
      exact .read hc hl
    · cases h
  | terminate =>
    simp only [State.step] at h
    split at h
    · rename_i n hc
      obtain rfl := Option.some.inj h
      exact .terminate hc
    · cases h
  | signal =>
    simp only [State.step] at h
    split at h
    · rename_i hc
      split_ifs at h with hr
      · obtain rfl := Option.some.inj h
        exact .signal hc hr
      · obtain rfl := Option.some.inj h
        exact .sigpipe hc (Bool.eq_false_iff.2 hr)
    · cases h
  | clientCompare =>
    simp only [State.step] at h
    split at h
    · rename_i hc
      obtain rfl := Option.some.inj h
      exact .clientCompare hc
    · cases h
  | clientClose =>
    simp only [State.step] at h
    split at h
    · rename_i hc
      obtain rfl := Option.some.inj h
      exact .clientClose hc
    · cases h
  | clientDetach =>
    simp only [State.step] at h
    split at h
    · rename_i hc
      obtain rfl := Option.some.inj h
      exact .clientDetach hc
    · cases h
  | wait =>
    simp only [State.step] at h
    split at h
    · rename_i hs
      by_cases hblock : s.fifo = [] ∧ s.client.writes = true
      · rw [if_pos hblock] at h
        cases h
      · rw [if_neg hblock, List.length_take] at h
        obtain rfl := Option.some.inj h
        by_cases hf : tokenSize ≤ s.fifo.length
        · rw [if_pos (Nat.min_eq_left hf)]
          exact .wait hs hf
        · rw [if_neg (by omega)]
          refine .fail hs (Nat.lt_of_not_le hf) fun hnil => ?_
          exact Bool.eq_false_iff.2 fun hw => hblock ⟨hnil, hw⟩
    · cases h
  | print =>
    simp only [State.step] at h
    split at h
    · rename_i hs
      obtain rfl := Option.some.inj h
      exact .print hs
    · cases h
  | serverCompare =>
    simp only [State.step] at h
    split at h
    · rename_i hs
      obtain rfl := Option.some.inj h
      exact .serverCompare hs
    · cases h
  | serverDetach =>
    simp only [State.step] at h
    split at h
    · rename_i hs
      obtain rfl := Option.some.inj h
      exact .serverDetach hs
    · cases h
  | serverClose =>
    simp only [State.step] at h
    split at h
    · rename_i hs
      obtain rfl := Option.some.inj h
      exact .serverClose hs
    · cases h

section loops

variable {x : Session} {s s' : State} {a : Action}

/-- The step of the loops that a step is, if it is one.  What is done to the
FIFO behind the loops leaves them as they are. -/
theorem Steps.loops (hstep : Steps s a s') :
    s'.loops = s.loops ∨ ∃ b, s.loops.step b = some s'.loops ∧
      (b = .serverCompare → a = .serverCompare) := by
  cases hstep with
  | read hc hl =>
    refine .inr ⟨.read, ?_, fun h => absurd h (by decide)⟩
    simp only [ShmPipe.State.step, State.loops, hc, hl, Client.loop]
  | terminate hc =>
    refine .inr ⟨.terminate, ?_, fun h => absurd h (by decide)⟩
    simp only [ShmPipe.State.step, State.loops, hc, Client.loop]
  | signal hc hr =>
    refine .inr ⟨.signal, ?_, fun h => absurd h (by decide)⟩
    have hcount : (s.fifo ++ token).length / tokenSize = s.fifo.length / tokenSize + 1 := by
      rw [List.length_append]
      exact Nat.add_div_right _ (by decide)
    simp only [ShmPipe.State.step, State.loops, hc, Client.loop, hcount]
  | sigpipe hc hr =>
    refine .inl ?_
    simp only [State.loops, hc, Client.loop]
  | clientCompare hc =>
    refine .inr ⟨.clientCompare, ?_, fun h => absurd h (by decide)⟩
    simp only [ShmPipe.State.step, State.loops, hc, Client.loop]
    split_ifs <;> rfl
  | clientClose hc =>
    refine .inl ?_
    simp only [State.loops, hc, Client.loop]
  | clientDetach hc =>
    refine .inl ?_
    simp only [State.loops, hc, Client.loop]
  | wait hs hf =>
    refine .inr ⟨.wait, ?_, fun h => absurd h (by decide)⟩
    obtain ⟨k, hk⟩ := Nat.exists_eq_add_of_le hf
    have hcount : s.fifo.length / tokenSize = k / tokenSize + 1 := by
      rw [hk, Nat.add_comm]
      exact Nat.add_div_right _ (by decide)
    have hdrop : (s.fifo.drop tokenSize).length = k := by
      rw [List.length_drop, hk, Nat.add_sub_cancel_left]
    simp only [ShmPipe.State.step, State.loops, hs, Server.loop, hcount, hdrop]
  | fail hs hf hw =>
    refine .inl ?_
    have hdrop : (s.fifo.drop tokenSize).length = 0 := by
      rw [List.length_drop]
      omega
    simp only [State.loops, hs, Server.loop, hdrop, Nat.div_eq_of_lt hf, Nat.zero_div]
  | print hs =>
    refine .inr ⟨.print, ?_, fun h => absurd h (by decide)⟩
    simp only [ShmPipe.State.step, State.loops, hs, Server.loop]
  | serverCompare hs =>
    refine .inr ⟨.serverCompare, ?_, fun _ => rfl⟩
    simp only [ShmPipe.State.step, State.loops, hs, Server.loop]
    split_ifs <;> rfl
  | serverDetach hs =>
    refine .inl ?_
    simp only [State.loops, hs, Server.loop]
  | serverClose hs =>
    refine .inl ?_
    simp only [State.loops, hs, Server.loop]

/-- The loops begin where the two programs do. -/
theorem loops_start (x : Session) : (start x).loops = x.start := by
  have hcount : ([] : List UInt8).length / tokenSize = 0 := Nat.zero_div _
  simp only [State.loops, start, Session.start, hcount, Client.loop, Server.loop]

/-- **The two programs run the loops of the model.**  Its FIFO of tokens has no
bound either, so that every interleaving of the two ends is one of the
loops. -/
theorem refines (x : Session) : (runs x).Refines (ShmPipe.runs x) State.loops where
  init := by
    rintro _ rfl
    exact loops_start x
  step := by
    rintro s s' - ⟨a, -, hstep⟩
    rcases (steps hstep).loops with heq | ⟨b, hb, -⟩
    · exact .inl heq
    · exact .inr ⟨b, rfl, hb⟩

end loops

/-! ### The server -/

/-- How many tokens the server has taken: it prints once for each. -/
def State.taken (s : State) : ℕ := s.printed.length + if s.server = .print then 1 else 0

/-- As many tokens are taken in the loops as by the server. -/
theorem taken_loops (s : State) : s.loops.taken = s.taken := by
  have hprint : s.server.loop = .print ↔ s.server = .print := by
    cases s.server <;> simp [Server.loop]
  simp only [ShmPipe.State.taken, State.taken, State.loops, hprint]

/-- The FIFO holds whole tokens, a client is killed only when no read end is
left, and `Wait` has not failed. -/
structure Intact (s : State) : Prop where
  whole : tokenSize ∣ s.fifo.length
  killed : s.client = .killed → s.server.reads = false
  alive : s.server ≠ .aborted

section server

variable {x : Session} {s s' : State} {a : Action}

/-- A server that waits finds a token when no write end is left.  The client is
behind its loop then, and the loops have a token for each line that the server
has not looked at. -/
theorem Intact.pending (h : Intact s) (hs : (runs x).Reachable s) (hwait : s.server = .wait)
    (hclosed : s.client.writes = false) : tokenSize ≤ s.fifo.length := by
  obtain ⟨got, n, hbooks⟩ := books ((refines x).reachable hs)
  have hloop : s.loops.server = .wait := by
    simp only [State.loops, hwait, Server.loop]
  have hdone : s.loops.client = .done := by
    cases hc : s.client with
    | killed =>
      have hreads := h.killed hc
      rw [hwait] at hreads
      cases hreads
    | detach | done => simp only [State.loops, hc, Client.loop]
    | _ =>
      rw [hc] at hclosed
      cases hclosed
  have hpos : 0 < s.fifo.length / tokenSize := hbooks.pending_of_done hdone hloop
  by_contra hlt
  rw [Nat.div_eq_of_lt (Nat.lt_of_not_le hlt)] at hpos
  exact Nat.lt_irrefl 0 hpos

/-- **Every step leaves the channel intact.**  Only `Wait` could fail, where it
reads the end of the FIFO or a part of a token, and there is a token for it. -/
theorem Intact.step (h : Intact s) (hs : (runs x).Reachable s) (hstep : Steps s a s') :
    Intact s' := by
  have hpending := h.pending hs
  obtain ⟨hwhole, hkilled, halive⟩ := h
  cases hstep with
  | read hc hl | terminate hc => exact ⟨hwhole, nofun, halive⟩
  | signal hc hr =>
    refine ⟨?_, nofun, halive⟩
    rw [List.length_append]
    exact Nat.dvd_add hwhole (Nat.dvd_refl _)
  | sigpipe hc hr => exact ⟨hwhole, fun _ => hr, halive⟩
  | clientCompare hc =>
    refine ⟨hwhole, fun hk => ?_, halive⟩
    change (if s.shm.isQuit then Client.close else .read) = .killed at hk
    split_ifs at hk
  | clientClose hc | clientDetach hc => exact ⟨hwhole, nofun, halive⟩
  | wait hw hf =>
    refine ⟨?_, fun hk => ?_, nofun⟩
    · rw [List.length_drop]
      exact Nat.dvd_sub hwhole (Nat.dvd_refl _)
    · have hreads := hkilled hk
      rw [hw] at hreads
      cases hreads
  | fail hw hf hclosed =>
    have hnil : s.fifo = [] := List.length_eq_zero_iff.1 (Nat.eq_zero_of_dvd_of_lt hwhole hf)
    have hle := hpending hw (hclosed hnil)
    omega
  | print hp =>
    refine ⟨hwhole, fun hk => ?_, nofun⟩
    have hreads := hkilled hk
    rw [hp] at hreads
    cases hreads
  | serverCompare hc =>
    refine ⟨hwhole, fun hk => ?_, fun hab => ?_⟩
    · have hreads := hkilled hk
      rw [hc] at hreads
      cases hreads
    · change (if s.shm.isQuit then Server.detach else .wait) = .aborted at hab
      split_ifs at hab
  | serverDetach hc =>
    refine ⟨hwhole, fun hk => ?_, nofun⟩
    have hreads := hkilled hk
    rw [hc] at hreads
    cases hreads
  | serverClose hc => exact ⟨hwhole, fun _ => rfl, nofun⟩

/-- **The channel is intact in every run,** by induction along it. -/
theorem intact (hs : (runs x).Reachable s) : Intact s := by
  refine hs.invariant (I := Intact) ?_ ?_
  · rintro _ rfl
    exact ⟨Nat.dvd_zero _, nofun, nofun⟩
  · rintro s s' hs h ⟨a, -, hstep⟩
    exact h.step hs (steps hstep)

/-- **The server never waits on a channel whose client has gone.**  Whatever is
typed and however the two interleave: `Wait` reads neither the end of the FIFO
nor a part of a token, and where no write end is left a token is there for it;
when the server has taken as many tokens as lines were typed, `quit` is in the
shared memory and it does not wait any more; and there is always a terminator
in the shared memory. -/
theorem server_never_starves (hs : (runs x).Reachable s) :
    s.server ≠ .aborted ∧
      (s.server = .wait → s.client.writes = false → tokenSize ≤ s.fifo.length) ∧
      s.taken ≤ x.typed.length ∧
      (s.taken = x.typed.length → s.server ≠ .wait ∧ s.shm.isQuit = true) ∧
      ∃ i < shmSize, s.shm.mem[i]? = some 0 := by
  obtain ⟨got, n, hbooks⟩ := books ((refines x).reachable hs)
  have hintact := intact hs
  have htaken := taken_loops s
  refine ⟨hintact.alive, hintact.pending hs, htaken ▸ hbooks.taken_le, fun hall => ⟨?_, ?_⟩,
    shmSize - 1, by decide, s.shm.last⟩
  · intro hwait
    refine hbooks.leaves (htaken.trans hall) ?_
    simp only [State.loops, hwait, Server.loop]
  · exact hbooks.isQuit (htaken.trans hall)

end server

/-- The lines `a` and `b` are served; then the client types `quit`, signals it
and is gone before the server waits again. -/
theorem server_never_starves_quit : ∃ s, (runs ab).Reachable s ∧ s.printed.length = 2 ∧
    s.server = .wait ∧ s.client.writes = false ∧ tokenSize ≤ s.fifo.length := by
  have h₀ : (runs ab).Reachable (start ab) := .init rfl
  have h₁ := h₀.next (a := .read) rfl
  have h₂ := h₁.next (a := .terminate) rfl
  have h₃ := h₂.next (a := .signal) rfl
  have h₄ := h₃.next (a := .clientCompare) rfl
  have h₅ := h₄.next (a := .wait) rfl
  have h₆ := h₅.next (a := .print) rfl
  have h₇ := h₆.next (a := .serverCompare) rfl
  have h₈ := h₇.next (a := .read) rfl
  have h₉ := h₈.next (a := .terminate) rfl
  have h₁₀ := h₉.next (a := .signal) rfl
  have h₁₁ := h₁₀.next (a := .clientCompare) rfl
  have h₁₂ := h₁₁.next (a := .wait) rfl
  have h₁₃ := h₁₂.next (a := .print) rfl
  have h₁₄ := h₁₃.next (a := .serverCompare) rfl
  have h₁₅ := h₁₄.next (a := .read) rfl
  have h₁₆ := h₁₅.next (a := .terminate) rfl
  have h₁₇ := h₁₆.next (a := .signal) rfl
  have h₁₈ := h₁₇.next (a := .clientCompare) rfl
  have h₁₉ := h₁₈.next (a := .clientClose) rfl
  exact ⟨_, h₁₉, rfl, rfl, rfl, (server_never_starves h₁₉).2.1 rfl rfl⟩

/-! ### The client -/

/-- The server does not look for `quit` between the client's terminating the
last line and its signalling it. -/
def onTime (s : State) : Action → Bool
  | .serverCompare => ¬ (s.client = .signal ∧ s.lines = [])
  | _ => true

/-- The client is not killed, and will not be: wherever it is about to signal
the read end of the FIFO is open. -/
def Spared (s : State) : Prop :=
  s.client ≠ .killed ∧ (s.client = .signal → s.server.reads = true)

section client

variable {x : Session} {s s' : State} {a : Action}

/-- A step on time is one of the loops on time, while the client lives: there
it stands at the same place. -/
theorem onTime_loops (hk : s.client ≠ .killed) (hok : onTime s a = true)
    {b : ShmPipe.Action} (hb : b = .serverCompare → a = .serverCompare) :
    ShmPipe.onTime s.loops b = true := by
  cases b with
  | serverCompare =>
    rw [hb rfl] at hok
    refine decide_eq_true fun ⟨hc, hl⟩ => of_decide_eq_true hok ⟨?_, hl⟩
    change s.client.loop = .signal at hc
    cases hclient : s.client with
    | signal => rfl
    | killed => exact absurd hclient hk
    | _ =>
      rw [hclient] at hc
      cases hc
  | _ => rfl

/-- Where the server has left on time the read end is open for the client, as
it has no more signals to give. -/
theorem reads_of_gone (hgone : Gone s.loops) (halive : s.server ≠ .aborted)
    (hc : s.client = .signal) : s.server.reads = true := by
  cases hserver : s.server with
  | aborted => exact absurd hserver halive
  | done =>
    have hdone : s.loops.server = .done := by
      simp only [State.loops, hserver, Server.loop]
    have hsignal : s.loops.client = .signal := by
      simp only [State.loops, hc, Client.loop]
    rcases (hgone hdone).2 with h | h <;> cases hsignal.symm.trans h
  | _ => rfl

/-- **The loops are on time in a run that is,** and the client lives.  The two
go together, as a killed client would stay at its signal in the loops. -/
theorem loops_onTime (hs : (sys onTime x).Reachable s) :
    (ShmPipe.sys ShmPipe.onTime x).Reachable s.loops ∧ s.client ≠ .killed := by
  refine hs.invariant (I := fun s =>
    (ShmPipe.sys ShmPipe.onTime x).Reachable s.loops ∧ s.client ≠ .killed) ?_ ?_
  · rintro _ rfl
    exact ⟨.init (loops_start x), nofun⟩
  · rintro s s' hs ⟨hloops, hk⟩ ⟨a, hok, hstep⟩
    have hsteps := steps hstep
    constructor
    · rcases hsteps.loops with heq | ⟨b, hb, hcompare⟩
      · rw [heq]
        exact hloops
      · exact .step hloops ⟨b, onTime_loops hk hok hcompare, hb⟩
    · cases hsteps with
      | sigpipe hc hr =>
        rw [reads_of_gone (gone_of_onTime hloops) (intact hs.free).alive hc] at hr
        cases hr
      | clientCompare hc =>
        show (if s.shm.isQuit then Client.close else .read) ≠ .killed
        split_ifs <;> nofun
      | read | terminate | signal | clientClose | clientDetach => exact nofun
      | wait | fail | print | serverCompare | serverDetach | serverClose => exact hk

/-- **The client is spared in every run that is on time.** -/
theorem spared_of_onTime (hs : (sys onTime x).Reachable s) : Spared s := by
  obtain ⟨hloops, hk⟩ := loops_onTime hs
  exact ⟨hk, reads_of_gone (gone_of_onTime hloops) (intact hs.free).alive⟩

/-- Where only `quit` is typed the server is on time: it does not look before
the one signal. -/
theorem onTime_of_nil (h : x.lines = []) (hs : (runs x).Reachable s) :
    (sys onTime x).Reachable s := by
  refine hs.admitted fun s a s' hs hstep => ?_
  cases steps hstep with
  | serverCompare hserver =>
    refine decide_eq_true fun ⟨hc, hl⟩ => ?_
    have hloops := (refines x).reachable hs.free
    obtain ⟨taken, htyped, hstage⟩ := stage_of_inTime (inTime_of_nil h hloops)
    have hsignal : s.loops.client = .signal := by
      simp only [State.loops, hc, Client.loop]
    have hcompare : s.loops.server = .compare := by
      simp only [State.loops, hserver, Server.loop]
    have hlines : s.loops.lines = [] := hl
    generalize s.loops = t at hstage hsignal hcompare hlines htyped
    cases hstage with
    | fresh => cases hsignal
    | @writing before line lines shm client server hw hlooks =>
      rcases hlooks with rfl | ⟨-, hne⟩
      · cases hcompare
      · rw [hlines, List.append_nil, Session.typed] at htyped
        have hline := (List.append_inj' htyped rfl).2
        rw [← List.singleton_inj.1 hline] at hne
        exact hne rfl
    | signalled hclient hmem hserved =>
      obtain rfl : _ = ShmPipe.Client.signal := hsignal
      cases hclient
  | _ => rfl

/-- A token is there to be taken. -/
theorem wait_eq (hw : s.server = .wait) (hf : tokenSize ≤ s.fifo.length) :
    s.step .wait = some { s with fifo := s.fifo.drop tokenSize, server := .print } := by
  have hne : ¬ (s.fifo = [] ∧ s.client.writes = true) := by
    rintro ⟨hnil, -⟩
    rw [hnil] at hf
    exact absurd hf (by decide)
  have hlen : (s.fifo.take tokenSize).length = tokenSize := by
    rw [List.length_take]
    exact Nat.min_eq_left hf
  simp only [State.step, hw, if_neg hne, if_pos hlen]

/-- The client may type ahead of the server, as no `Signal` blocks: any number
of lines can be in the FIFO as tokens before the server has read one. -/
theorem typed_ahead {more : List Line} : ∀ (lines : List Line) (shm : Shm) (fifo : List UInt8),
    (∀ line ∈ lines, line.body ≠ quit) →
    (runs x).Reachable ⟨lines ++ more, shm, fifo, .read, .wait, []⟩ →
    ∃ shm' fifo', (runs x).Reachable ⟨more, shm', fifo', .read, .wait, []⟩ ∧
      fifo'.length = fifo.length + tokenSize * lines.length
  | [], shm, fifo, _, h => ⟨shm, fifo, h, rfl⟩
  | line :: lines, shm, fifo, hne, h => by
    obtain ⟨rest, hmem⟩ := read_mem shm line
    have hbody : line.body ≠ quit := hne line List.mem_cons_self
    have h₁ := h.next (a := .read) rfl
    have h₂ := h₁.next (a := .terminate) rfl
    have h₃ := h₂.next (a := .signal) rfl
    have h₄ := h₃.next (a := .clientCompare) rfl
    have hcompare : ((shm.read line).terminate line.body.length).isQuit = false := by
      rw [isQuit_of_mem (terminate_mem hmem)]
      exact decide_eq_false hbody
    simp only [Nat.add_sub_cancel, hcompare] at h₄
    obtain ⟨shm', fifo', h', hlen⟩ :=
      typed_ahead lines _ _ (fun l hl => hne l (List.mem_cons_of_mem _ hl)) h₄
    refine ⟨shm', fifo', h', ?_⟩
    rw [hlen, List.length_append, List.length_cons, Nat.mul_succ]
    show fifo.length + tokenSize + _ = _
    omega

/-- **Where another line is typed before `quit` the client can be killed:** the
server takes a token, finds `quit` and closes the FIFO before the client
signals it. -/
theorem client_killed (h : x.lines ≠ []) :
    ∃ s, (runs x).Reachable s ∧ s.client = .killed := by
  have h₀ : (runs x).Reachable ⟨x.lines ++ [quitLine], .zeros, [], .read, .wait, []⟩ := .init rfl
  obtain ⟨shm, fifo, h₁, hlen⟩ := typed_ahead x.lines _ _ x.others h₀
  have hpos := List.length_pos_iff.2 h
  have hf : tokenSize ≤ fifo.length := by
    rw [hlen, List.length_nil, Nat.zero_add]
    exact Nat.le_mul_of_pos_right _ hpos
  obtain ⟨rest, hmem⟩ := read_mem shm quitLine
  have hquit : ((shm.read quitLine).terminate quitLine.body.length).isQuit = true := by
    rw [isQuit_of_mem (terminate_mem hmem)]
    rfl
  have h₂ := h₁.next (wait_eq rfl hf)
  have h₃ := h₂.next (a := .print) rfl
  have h₄ := h₃.next (a := .read) rfl
  have h₅ := h₄.next (a := .terminate) rfl
  have h₆ := h₅.next (a := .serverCompare) rfl
  simp only [Nat.add_sub_cancel, hquit] at h₆
  have h₇ := h₆.next (a := .serverDetach) rfl
  have h₈ := h₇.next (a := .serverClose) rfl
  exact ⟨_, h₈.next (a := .signal) rfl, rfl⟩

/-- **When the client is spared.**  In every run in which the server does not
look for `quit` between the client's terminating that line and its signalling
it, the read end of the FIFO is open at every signal and the client is not
killed.  Whatever the interleaving, that is so if and only if nothing is typed
but `quit`. -/
theorem client_spared (x : Session) :
    (∀ s, (sys onTime x).Reachable s → Spared s) ∧
      ((∀ s, (runs x).Reachable s → Spared s) ↔ x.lines = []) := by
  refine ⟨fun s hs => spared_of_onTime hs, fun h => ?_, fun h s hs => ?_⟩
  · by_contra hne
    obtain ⟨s, hs, hkilled⟩ := client_killed hne
    exact (h s hs).1 hkilled
  · exact spared_of_onTime (onTime_of_nil h hs)

end client

/-- Behind `a` and `b`, the server looks for `quit` after the client signalled
it, and closes the FIFO first. -/
theorem client_spared_quit : ∃ s, (sys onTime ab).Reachable s ∧ s.server = .done ∧
    s.client = .compare ∧ Spared s := by
  have h₀ : (sys onTime ab).Reachable (start ab) := .init rfl
  have h₁ : (sys onTime ab).Reachable _ := .step h₀ ⟨.read, rfl, rfl⟩
  have h₂ : (sys onTime ab).Reachable _ := .step h₁ ⟨.terminate, rfl, rfl⟩
  have h₃ : (sys onTime ab).Reachable _ := .step h₂ ⟨.signal, rfl, rfl⟩
  have h₄ : (sys onTime ab).Reachable _ := .step h₃ ⟨.clientCompare, rfl, rfl⟩
  have h₅ : (sys onTime ab).Reachable _ := .step h₄ ⟨.wait, rfl, rfl⟩
  have h₆ : (sys onTime ab).Reachable _ := .step h₅ ⟨.print, rfl, rfl⟩
  -- the client is about to signal, but `quit` is not what it signals
  have h₇ : (sys onTime ab).Reachable _ := .step h₆ ⟨.read, rfl, rfl⟩
  have h₈ : (sys onTime ab).Reachable _ := .step h₇ ⟨.terminate, rfl, rfl⟩
  have h₉ : (sys onTime ab).Reachable _ := .step h₈ ⟨.serverCompare, rfl, rfl⟩
  have h₁₀ : (sys onTime ab).Reachable _ := .step h₉ ⟨.signal, rfl, rfl⟩
  have h₁₁ : (sys onTime ab).Reachable _ := .step h₁₀ ⟨.clientCompare, rfl, rfl⟩
  have h₁₂ : (sys onTime ab).Reachable _ := .step h₁₁ ⟨.wait, rfl, rfl⟩
  have h₁₃ : (sys onTime ab).Reachable _ := .step h₁₂ ⟨.print, rfl, rfl⟩
  have h₁₄ : (sys onTime ab).Reachable _ := .step h₁₃ ⟨.serverCompare, rfl, rfl⟩
  have h₁₅ : (sys onTime ab).Reachable _ := .step h₁₄ ⟨.read, rfl, rfl⟩
  have h₁₆ : (sys onTime ab).Reachable _ := .step h₁₅ ⟨.terminate, rfl, rfl⟩
  have h₁₇ : (sys onTime ab).Reachable _ := .step h₁₆ ⟨.signal, rfl, rfl⟩
  have h₁₈ : (sys onTime ab).Reachable _ := .step h₁₇ ⟨.wait, rfl, rfl⟩
  have h₁₉ : (sys onTime ab).Reachable _ := .step h₁₈ ⟨.print, rfl, rfl⟩
  have h₂₀ : (sys onTime ab).Reachable _ := .step h₁₉ ⟨.serverCompare, rfl, rfl⟩
  have h₂₁ : (sys onTime ab).Reachable _ := .step h₂₀ ⟨.serverDetach, rfl, rfl⟩
  have h₂₂ : (sys onTime ab).Reachable _ := .step h₂₁ ⟨.serverClose, rfl, rfl⟩
  exact ⟨_, h₂₂, rfl, rfl, (client_spared ab).1 _ h₂₂⟩

/-- **The client is killed** where `a`, `b` and `quit` are typed before the
server looks. -/
theorem ab_kills_client : ∃ s, (runs ab).Reachable s ∧ s.client = .killed ∧ ¬ Spared s := by
  obtain ⟨s, hs, hkilled⟩ := client_killed (x := ab) (by decide)
  exact ⟨s, hs, hkilled, fun h => h.1 hkilled⟩

end Channel
end ShmPipe
end OSNetWorkCode
