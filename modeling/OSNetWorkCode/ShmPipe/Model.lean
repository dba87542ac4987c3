/-
# Lines through shared memory, with a FIFO to wake the reader

`1201/shm_pipe`.  `shmClient.cc` reads each line from the keyboard straight
into the shared memory, puts a terminator where the newline is, signals through
the FIFO and looks whether that was `quit`; `shmServer.cc` waits for a signal,
prints the shared memory as a string and looks whether it is `quit`.  `Signal`
writes four bytes into the FIFO and `Wait` reads four; what they are is not
looked at, so that the FIFO counts the signals not yet waited for.  Nothing
goes back from the server to the client.

The segment is new, so that it holds zeros; a line is read up to its newline,
and all of it at once.  The FIFO holds any number of signals, so that `Signal`
never blocks: the client may type all its lines before the server has read
anything.  A real FIFO has a capacity, and the client waits while it is full;
that takes runs away and adds none.
-/

import OSNetWorkCode.Lib.CString
import OSNetWorkCode.Lib.Transition

namespace OSNetWorkCode
namespace ShmPipe

open CString

/-- `SHM_SIZE`. -/
def shmSize : ℕ := 4096

/-- A line as one `read(0, shmaddr, SHM_SIZE - 1)` returns it, without its
newline. -/
structure Line where
  body : List UInt8
  zero : 0 ∉ body
  fits : body.length + 1 ≤ shmSize - 1

/-- The shared memory; its last byte is never written. -/
structure Shm where
  mem : List UInt8
  last : mem[shmSize - 1]? = some 0

/-- `'\n'`. -/
def newline : UInt8 := 10

/-- `"quit"`. -/
def quit : List UInt8 := [113, 117, 105, 116]

/-- A line is read into the shared memory. -/
def Shm.read (shm : Shm) (line : Line) : Shm :=
  ⟨blit (line.body ++ [newline]) shm.mem, by
    have hfits := line.fits
    rw [blit, List.getElem?_append_right (by simpa using hfits), List.getElem?_drop,
      Nat.add_sub_cancel' (by simpa using hfits)]
    exact shm.last⟩

/-- `shmaddr[i] = 0`. -/
def Shm.terminate (shm : Shm) (i : ℕ) : Shm :=
  ⟨shm.mem.set i 0, by
    obtain ⟨hlt, hlast⟩ := List.getElem?_eq_some_iff.1 shm.last
    rw [List.getElem?_set]
    split_ifs with h
    · rfl
    · omega
    · exact shm.last⟩

/-- The shared memory as a string. -/
def Shm.str (shm : Shm) : List UInt8 := text shm.mem

/-- `strcmp(shmaddr, "quit") == 0`. -/
def Shm.isQuit (shm : Shm) : Bool := shm.str = quit

/-- Where the client stands. -/
inductive Client
  | read
  /-- `read` returned `s`. -/
  | terminate (s : ℕ)
  | signal
  | compare
  | done
  deriving DecidableEq

/-- Where the server stands. -/
inductive Server
  | wait
  | print
  | compare
  | done
  deriving DecidableEq

/-- The lines not yet typed, the shared memory, the signals in the FIFO, the
two programs, and what the server has printed. -/
structure State where
  lines : List Line
  shm : Shm
  signals : ℕ
  client : Client
  server : Server
  printed : List (List UInt8)

/-- Whose turn it is, and what for. -/
inductive Action
  | read
  | terminate
  | signal
  | clientCompare
  | wait
  | print
  | serverCompare
  deriving DecidableEq

/-- One step of the client or the server. -/
def State.step (s : State) : Action → Option State
  | .read =>
    match s.client, s.lines with
    | .read, line :: lines => some { s with
        lines := lines, shm := s.shm.read line, client := .terminate (line.body.length + 1) }
    | _, _ => none
  | .terminate =>
    match s.client with
    | .terminate n => some { s with shm := s.shm.terminate (n - 1), client := .signal }
    | _ => none
  | .signal =>
    match s.client with
    | .signal => some { s with signals := s.signals + 1, client := .compare }
    | _ => none
  | .clientCompare =>
    match s.client with
    | .compare => some { s with client := if s.shm.isQuit then .done else .read }
    | _ => none
  | .wait =>
    match s.server, s.signals with
    | .wait, n + 1 => some { s with signals := n, server := .print }
    | _, _ => none
  | .print =>
    match s.server with
    | .print => some { s with printed := s.printed ++ [s.shm.str], server := .compare }
    | _ => none
  | .serverCompare =>
    match s.server with
    | .compare => some { s with server := if s.shm.isQuit then .done else .wait }
    | _ => none

/-- What is typed: any lines other than `quit`, and `quit`. -/
structure Session where
  lines : List Line
  others : ∀ line ∈ lines, line.body ≠ quit

/-- The line `quit`. -/
def quitLine : Line := ⟨quit, by decide, by decide⟩

/-- All lines typed, in order. -/
def Session.typed (x : Session) : List Line := x.lines ++ [quitLine]

/-- A new segment. -/
def Shm.zeros : Shm := ⟨List.replicate shmSize 0, by
  rw [List.getElem?_replicate]
  rfl⟩

/-- Both programs are about to enter their loops. -/
def Session.start (x : Session) : State := ⟨x.typed, .zeros, 0, .read, .wait, []⟩

/-- The runs in which every step is one that `ok` admits. -/
def sys (ok : State → Action → Bool) (x : Session) : System State :=
  System.along (fun s => s = x.start) State.step ok

/-- All runs. -/
abbrev runs (x : Session) : System State := sys System.anything x

/-- The server has printed the first of the lines typed, once each and in
order, and all of them if it has left its loop. -/
def Delivered (x : Session) (s : State) : Prop :=
  s.printed <+: x.typed.map Line.body ∧
    (s.server = .done → s.printed = x.typed.map Line.body)

/-! ### What each step does -/

/-- The steps, listed. -/
inductive Steps (s : State) : Action → State → Prop
  | read {line lines} (hc : s.client = .read) (hl : s.lines = line :: lines) :
      Steps s .read { s with
        lines := lines, shm := s.shm.read line, client := .terminate (line.body.length + 1) }
  | terminate {n} (hc : s.client = .terminate n) :
      Steps s .terminate { s with shm := s.shm.terminate (n - 1), client := .signal }
  | signal (hc : s.client = .signal) :
      Steps s .signal { s with signals := s.signals + 1, client := .compare }
  | clientCompare (hc : s.client = .compare) :
      Steps s .clientCompare { s with client := if s.shm.isQuit then .done else .read }
  | wait {n} (hs : s.server = .wait) (hn : s.signals = n + 1) :
      Steps s .wait { s with signals := n, server := .print }
  | print (hs : s.server = .print) :
      Steps s .print { s with printed := s.printed ++ [s.shm.str], server := .compare }
  | serverCompare (hs : s.server = .compare) :
      Steps s .serverCompare { s with server := if s.shm.isQuit then .done else .wait }

/-- **What `step` makes is one of the steps.**  The conditions under which an
action is possible are in the rules. -/
theorem steps {s s' : State} {a : Action} (h : s.step a = some s') : Steps s a s' := by
  cases a with
  | read =>
    simp only [State.step] at h
    split at h
    · rename_i line lines hc hl
      obtain rfl := Option.some.inj h
      exact .read hc hl
    · cases h
  | terminate =>
    simp only [State.step] at h
    split at h
    · rename_i n hc
      obtain rfl := Option.some.inj h
      exact .terminate hc
    · cases h
  | signal =>
    simp only [State.step] at h
    split at h
    · rename_i hc
      obtain rfl := Option.some.inj h
      exact .signal hc
    · cases h
  | clientCompare =>
    simp only [State.step] at h
    split at h
    · rename_i hc
      obtain rfl := Option.some.inj h
      exact .clientCompare hc
    · cases h
  | wait =>
    simp only [State.step] at h
    split at h
    · rename_i n hs hn
      obtain rfl := Option.some.inj h
      exact .wait hs hn
    · cases h
  | print =>
    simp only [State.step] at h
    split at h
    · rename_i hs
      obtain rfl := Option.some.inj h
      exact .print hs
    · cases h
  | serverCompare =>
    simp only [State.step] at h
    split at h
    · rename_i hs
      obtain rfl := Option.some.inj h
      exact .serverCompare hs
    · cases h

/-- What a line leaves in the shared memory before it is terminated: the line,
its newline, and what was there behind it. -/
theorem read_mem (shm : Shm) (line : Line) :
    ∃ rest, (shm.read line).mem = line.body ++ newline :: rest := by
  refine ⟨shm.mem.drop (line.body ++ [newline]).length, ?_⟩
  show line.body ++ [newline] ++ _ = _
  rw [List.append_assoc]
  rfl

/-- The terminator replaces the newline. -/
theorem terminate_mem {shm : Shm} {line : Line} {rest : List UInt8}
    (h : shm.mem = line.body ++ newline :: rest) :
    (shm.terminate line.body.length).mem = line.body ++ 0 :: rest := by
  show shm.mem.set line.body.length 0 = _
  rw [h, List.set_append_right _ _ le_rfl, Nat.sub_self, List.set_cons_zero]

/-- A line that is terminated is the string, whatever lies behind it from
longer lines. -/
theorem str_of_mem {shm : Shm} {line : Line} {rest : List UInt8}
    (h : shm.mem = line.body ++ 0 :: rest) : shm.str = line.body := by
  rw [Shm.str, h]
  exact text_append_zero line.zero rest

/-- `strcmp` looks at the line then, and finds `quit` just if it is that. -/
theorem isQuit_of_mem {shm : Shm} {line : Line} {rest : List UInt8}
    (h : shm.mem = line.body ++ 0 :: rest) : shm.isQuit = decide (line.body = quit) := by
  rw [Shm.isQuit, str_of_mem h]

/-- **A line that is not terminated runs on** past its newline.  So it is not
taken for `quit`, though its text may be that. -/
theorem str_of_newline {shm : Shm} {line : Line} {rest : List UInt8}
    (h : shm.mem = line.body ++ newline :: rest) :
    ∃ more, shm.str = line.body ++ newline :: more := by
  refine ⟨text rest, ?_⟩
  have hpos : ∀ c ∈ line.body ++ [newline], decide (c ≠ 0) = true := by
    intro c hc
    rcases List.mem_append.1 hc with hc | hc
    · have hne : c ≠ 0 := fun h0 => line.zero (h0 ▸ hc)
      simpa using hne
    · rw [List.mem_singleton.1 hc]
      decide
  have hsplit : line.body ++ newline :: rest = (line.body ++ [newline]) ++ rest := by
    rw [List.append_assoc]
    rfl
  rw [Shm.str, h, hsplit, text, List.takeWhile_append_of_pos hpos, List.append_assoc]
  rfl

end ShmPipe
end OSNetWorkCode
