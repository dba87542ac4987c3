/-
# A parent that writes to its child through a pipe

`1119/pipe/mypipe.cc`.  The parent makes a pipe and a child, closes the read
end, writes ten messages, closes the write end and waits for the child; the
child closes the write end and prints what it reads until `read` returns 0.

The pipe is a queue of at most `cap` bytes.  A read takes what is there, up to
1023 bytes; from an empty pipe it waits while some process has the write end
open, and returns 0 otherwise.  A message is shorter than `PIPE_BUF`, so that
its write is atomic: it waits until there is room for all of it; without a
reader it kills the writer (SIGPIPE).  `pipe` and `fork` may fail, the
assertions on them abort the parent.  Between a write and the test whether it
was the last one the parent sleeps; the child may do anything meanwhile, and
what it prints may come before the parent's line.

Both buffers are on a stack and hold anything at first; the child's is filled
as the one of `service` in `TcpServer` is, from which `Buffer` and `fill` are
taken.
-/

import OSNetWorkCode.Lib.FdTable
import OSNetWorkCode.Lib.Transition
import OSNetWorkCode.TcpServer.Model

namespace OSNetWorkCode
namespace Pipe

open CString
open TcpServer (Buffer fill)

/-- What a descriptor stands for: an end of the pipe, or one of the files that
were open before. -/
inductive End
  | other
  | read
  | write
  deriving DecidableEq

/-- The lines on the screen. -/
inductive Line
  /-- `child get a message [pid] Father# text`. -/
  | message (pid : ℕ) (text : List UInt8)
  /-- `writer quit(father),me(child) quit!`. -/
  | childQuit
  /-- `writer quit(father)`. -/
  | fatherQuit
  deriving DecidableEq

/-- Where the child stands. -/
inductive ChildPc
  | unborn
  /-- Before `close(pipefd[1])`. -/
  | start
  | read
  /-- Behind the loop. -/
  | exit
  | exited
  deriving DecidableEq

/-- The child, with its table of descriptors and its buffer. -/
structure Child where
  table : FdTable End
  buffer : Buffer
  pc : ChildPc

/-- Where the parent stands. -/
inductive ParentPc
  | pipe
  | fork
  /-- Before `close(pipefd[0])`. -/
  | closeRead
  /-- At the head of the loop, `count` messages sent. -/
  | send (count : ℕ)
  /-- Behind `count++`, before `sleep(1)` and `if (count == 10)`. -/
  | test (count : ℕ)
  /-- Behind the loop. -/
  | closeWrite
  | wait
  | returned
  | aborted
  /-- By SIGPIPE. -/
  | killed
  deriving DecidableEq

/-- The two processes, the pipe and the screen. -/
structure State where
  parent : ParentPc
  /-- The parent's descriptors. -/
  table : FdTable End
  pipefd : ℕ × ℕ
  sendBuffer : Buffer
  child : Child
  pipe : List UInt8
  screen : List Line

namespace State

/-- Some process has this end open. -/
def Held (s : State) (e : End) : Prop := s.table.Holds e ∨ s.child.table.Holds e

/-- Whether an end is open somewhere can be computed. -/
instance (s : State) (e : End) : Decidable (s.Held e) := inferInstanceAs (Decidable (_ ∨ _))

/-- The parent is no more. -/
def dies (s : State) (pc : ParentPc) : State := { s with parent := pc, table := .empty }

end State

/-- `message`. -/
def greeting : List UInt8 :=
  [230, 136, 145, 230, 152, 175, 231, 136, 182, 232, 191, 155, 231, 168, 139, 239, 188, 140, 230, 136,
    145, 230, 173, 163, 229, 156, 168, 231, 187, 153, 228, 189, 160, 229, 143, 145, 230, 182, 136, 230,
    129, 175]

/-- `"%s[%d] : %d"` of the greeting, the parent's pid and the count. -/
def message (father count : ℕ) : List UInt8 :=
  greeting ++ 91 :: (decimal father ++ [93, 32, 58, 32] ++ decimal count)

/-- `snprintf(send_buffer, sizeof(send_buffer), ...)`. -/
def format (b : Buffer) (s : List UInt8) : Buffer :=
  ⟨snprintf b.1 s, by
    have hlen : (s.take (b.1.length - 1) ++ [0]).length ≤ b.1.length := by
      have hsize : b.1.length = TcpServer.serviceSize := b.2
      have hpos : TcpServer.serviceSize = 1024 := rfl
      rw [List.length_append, List.length_take, List.length_singleton]
      omega
    exact (length_blit hlen).trans b.2⟩

/-- The pids of the two processes. -/
structure Pids where
  father : ℕ
  child : ℕ

/-- How many messages are sent. -/
def messages : ℕ := 10

/-- `write(pipefd[1], send_buffer, n)` and `count++`; what `write` returns is
not looked at. -/
def write (cap count n : ℕ) (s : State) : Option State :=
  match s.table.get s.pipefd.2 with
  | some .write =>
    if s.Held .read then
      if s.pipe.length + n ≤ cap then
        some { s with parent := .test (count + 1), pipe := s.pipe ++ s.sendBuffer.1.take n }
      else none
    else some (s.dies .killed)
  | _ => some { s with parent := .test (count + 1) }

/-- A step of the parent, in which `pipe` or `fork` may fail; `none` where it
waits. -/
def parentStep (cap : ℕ) (pids : Pids) (fails : Bool) (s : State) : Option State :=
  match s.parent, fails with
  | .pipe, false =>
    let table := s.table.openLowest .read
    some { s with
      parent := .fork
      pipefd := (s.table.lowest, table.lowest)
      table := table.openLowest .write }
  | .fork, false =>
    some { s with parent := .closeRead, child := { s.child with table := s.table, pc := .start } }
  | .pipe, true | .fork, true => some (s.dies .aborted)
  | .closeRead, false =>
    some { s with parent := .send 0, table := s.table.close s.pipefd.1 }
  | .send count, false =>
    let buffer := format s.sendBuffer (message pids.father count)
    match strlen buffer.1 with
    | some n => write cap count n { s with sendBuffer := buffer }
    | none => none
  | .test count, false =>
    if count = messages then
      some { s with parent := .closeWrite, screen := s.screen ++ [.fatherQuit] }
    else some { s with parent := .send count }
  | .closeWrite, false =>
    some { s with parent := .wait, table := s.table.close s.pipefd.2 }
  | .wait, false => if s.child.pc = .exited then some { s with parent := .returned } else none
  | _, _ => none

/-- How many bytes `read` takes at most. -/
def most : ℕ := TcpServer.serviceSize - 1

/-- What a read takes leaves room for the terminator. -/
theorem length_take_most (bytes : List UInt8) :
    (bytes.take most).length ≤ TcpServer.serviceSize - 1 :=
  List.length_take_le most bytes

/-- `read(pipefd[0], buffer, sizeof(buffer) - 1)` and what depends on its
result. -/
def read (pids : Pids) (s : State) : Option State :=
  match s.child.table.get s.pipefd.1 with
  | some .read =>
    let bytes := s.pipe.take most
    if bytes = [] then
      if s.Held .write then none
      else some { s with child := { s.child with pc := .exit }, screen := s.screen ++ [.childQuit] }
    else
      let buffer := fill s.child.buffer bytes (length_take_most s.pipe)
      some { s with
        child := { s.child with buffer := buffer }
        pipe := s.pipe.drop most
        screen := s.screen ++ [.message pids.child (text buffer.1)] }
  -- `read` returns -1, for which there is no branch
  | _ => some s

/-- A step of the child. -/
def childStep (pids : Pids) (s : State) : Option State :=
  match s.child.pc with
  | .start =>
    some { s with child := { s.child with table := s.child.table.close s.pipefd.2, pc := .read } }
  | .read => read pids s
  | .exit => some { s with child := { s.child with table := .empty, pc := .exited } }
  | .unborn | .exited => none

/-- A step of one of the two. -/
inductive Step (cap : ℕ) (pids : Pids) (s s' : State) : Prop
  | parent (fails : Bool) (h : parentStep cap pids fails s = some s')
  | child (h : childStep pids s = some s')

/-- The program starts; what the buffers hold is arbitrary. -/
def State.new (table : FdTable End) (sendBuffer buffer : Buffer) : State where
  parent := .pipe
  table := table
  pipefd := (0, 0)
  sendBuffer := sendBuffer
  child := ⟨.empty, buffer, .unborn⟩
  pipe := []
  screen := []

/-- The runs of the program; no descriptor is an end of the pipe before it. -/
def sys (cap : ℕ) (pids : Pids) : System State where
  init s := ∃ table sendBuffer buffer, (∀ fd e, table.get fd = some e → e = .other) ∧
    s = .new table sendBuffer buffer
  step := Step cap pids

/-! ### The messages -/

/-- The greeting is a string. -/
theorem zero_notMem_greeting : 0 ∉ greeting := by decide

/-- A message is a string: the greeting, the brackets and the digits hold no
zero byte. -/
theorem zero_notMem_message (father count : ℕ) : 0 ∉ message father count := by
  have hdigits : ∀ n, (0 : UInt8) ∉ decimal n := fun n h => by
    have hle : 48 ≤ (0 : UInt8).toNat := (Decimal.digit_of_mem h).1
    exact absurd hle (by decide)
  simp [message, zero_notMem_greeting, hdigits]

/-- **A message fits into the buffer,** whatever the pid.  So `snprintf` cuts
nothing off, and the write is shorter than what a pipe takes in one piece. -/
theorem length_message_le {father count : ℕ} (hfather : father < 2 ^ 31) (hcount : count < messages) :
    (message father count).length ≤ most := by
  have hgreeting : greeting.length = 42 := rfl
  have hmost : most = 1023 := rfl
  have hten : messages = 10 := rfl
  have hpid : (decimal father).length ≤ 10 :=
    Decimal.length_le (by decide) (Nat.lt_of_lt_of_le hfather (by decide))
  have hnumber : (decimal count).length ≤ 1 := Decimal.length_le (by decide) (by omega)
  simp only [message, List.length_append, List.length_cons, List.length_nil]
  omega

/-- **What `strlen` finds behind `snprintf` is the text.**  The `write` that
follows puts out just the message, and nothing that the buffer held before. -/
theorem strlen_format {b : Buffer} {s : List UInt8} (hs : 0 ∉ s) (hlen : s.length ≤ most) :
    strlen (format b s).1 = some s.length ∧ (format b s).1.take s.length = s := by
  have hsize : b.1.length - 1 = most := by rw [b.2]; rfl
  have htake : s.take (b.1.length - 1) = s := List.take_of_length_le (by omega)
  have hmem : (format b s).1 = s ++ 0 :: b.1.drop (s.length + 1) := by
    show blit (s.take (b.1.length - 1) ++ [0]) b.1 = _
    rw [htake, blit, List.append_assoc, List.length_append, List.length_singleton]
    rfl
  rw [hmem]
  exact ⟨strlen_append_zero hs _, List.take_left⟩

/-! ### What a step does -/

/-- The steps of the parent. -/
inductive ParentStep (cap : ℕ) (pids : Pids) (s : State) : State → Prop
  | abort (hpc : s.parent = .pipe ∨ s.parent = .fork) : ParentStep cap pids s (s.dies .aborted)
  | pipe (hpc : s.parent = .pipe) : ParentStep cap pids s { s with
      parent := .fork
      pipefd := (s.table.lowest, (s.table.openLowest .read).lowest)
      table := (s.table.openLowest .read).openLowest .write }
  | fork (hpc : s.parent = .fork) : ParentStep cap pids s { s with
      parent := .closeRead, child := { s.child with table := s.table, pc := .start } }
  | closeRead (hpc : s.parent = .closeRead) : ParentStep cap pids s { s with
      parent := .send 0, table := s.table.close s.pipefd.1 }
  | send {count n : ℕ} {s' : State} (hpc : s.parent = .send count)
    (hlen : strlen (format s.sendBuffer (message pids.father count)).1 = some n)
    (h : write cap count n
      { s with sendBuffer := format s.sendBuffer (message pids.father count) } = some s') :
    ParentStep cap pids s s'
  | again {count : ℕ} (hpc : s.parent = .test count) (hcount : count ≠ messages) :
    ParentStep cap pids s { s with parent := .send count }
  | quit (hpc : s.parent = .test messages) : ParentStep cap pids s { s with
      parent := .closeWrite, screen := s.screen ++ [.fatherQuit] }
  | closeWrite (hpc : s.parent = .closeWrite) : ParentStep cap pids s { s with
      parent := .wait, table := s.table.close s.pipefd.2 }
  | wait (hpc : s.parent = .wait) (hend : s.child.pc = .exited) :
    ParentStep cap pids s { s with parent := .returned }

/-- The steps of the child. -/
inductive ChildStep (pids : Pids) (s : State) : State → Prop
  | start (hpc : s.child.pc = .start) : ChildStep pids s { s with
      child := { s.child with table := s.child.table.close s.pipefd.2, pc := .read } }
  | eof (hpc : s.child.pc = .read) (hfd : s.child.table.get s.pipefd.1 = some .read)
    (hempty : s.pipe = []) (hheld : ¬s.Held .write) : ChildStep pids s { s with
      child := { s.child with pc := .exit }, screen := s.screen ++ [.childQuit] }
  | read (hpc : s.child.pc = .read) (hfd : s.child.table.get s.pipefd.1 = some .read)
    (hpos : s.pipe ≠ []) : ChildStep pids s { s with
      child := { s.child with
        buffer := fill s.child.buffer (s.pipe.take most) (length_take_most s.pipe) }
      pipe := s.pipe.drop most
      screen := s.screen ++ [.message pids.child (text (s.pipe.take most))] }
  | bad (hpc : s.child.pc = .read) (hfd : s.child.table.get s.pipefd.1 ≠ some .read) :
    ChildStep pids s s
  | exit (hpc : s.child.pc = .exit) : ChildStep pids s { s with
      child := { s.child with table := .empty, pc := .exited } }

variable {cap : ℕ} {pids : Pids} {s s' : State}

/-- What the parent's step makes is one of its steps.  The invariant is carried
through these, and not through `parentStep`. -/
theorem parentStep_cases {fails : Bool} (h : parentStep cap pids fails s = some s') :
    ParentStep cap pids s s' := by
  unfold parentStep at h
  split at h
  · obtain rfl := Option.some.inj h
    exact .pipe (by assumption)
  · obtain rfl := Option.some.inj h
    exact .fork (by assumption)
  · obtain rfl := Option.some.inj h
    exact .abort (.inl (by assumption))
  · obtain rfl := Option.some.inj h
    exact .abort (.inr (by assumption))
  · obtain rfl := Option.some.inj h
    exact .closeRead (by assumption)
  · simp only at h
    split at h
    · exact .send (by assumption) (by assumption) h
    · cases h
  · split_ifs at h with hcount
    · subst hcount
      obtain rfl := Option.some.inj h
      exact .quit (by assumption)
    · obtain rfl := Option.some.inj h
      exact .again (by assumption) hcount
  · obtain rfl := Option.some.inj h
    exact .closeWrite (by assumption)
  · split_ifs at h with hend
    obtain rfl := Option.some.inj h
    exact .wait (by assumption) hend
  · cases h

/-- What `read` makes is one of the child's steps: something is printed, or the
end of the file was found. -/
theorem read_cases (hpc : s.child.pc = .read) (h : read pids s = some s') :
    ChildStep pids s s' := by
  unfold read at h
  split at h
  · rename_i hfd
    simp only at h
    split_ifs at h with hempty hheld
    · obtain rfl := Option.some.inj h
      exact .eof hpc hfd (by simpa [most, TcpServer.serviceSize] using hempty) hheld
    · obtain rfl := Option.some.inj h
      rw [TcpServer.text_fill]
      exact .read hpc hfd fun hnil => hempty (by rw [hnil]; rfl)
  · rename_i hfd
    obtain rfl := Option.some.inj h
    exact .bad hpc hfd

/-- What the child's step makes is one of its steps. -/
theorem childStep_cases (h : childStep pids s = some s') : ChildStep pids s s' := by
  unfold childStep at h
  split at h
  · obtain rfl := Option.some.inj h
    exact .start (by assumption)
  · exact read_cases (by assumption) h
  · obtain rfl := Option.some.inj h
    exact .exit (by assumption)
  · cases h
  · cases h

/-- Where both ends are open a write waits for room, and appends.  There is a
reader, so that SIGPIPE does not come. -/
theorem write_eq {count n : ℕ} (hfd : s.table.get s.pipefd.2 = some .write) (hheld : s.Held .read) :
    write cap count n s =
      if s.pipe.length + n ≤ cap then
        some { s with parent := .test (count + 1), pipe := s.pipe ++ s.sendBuffer.1.take n }
      else none := by
  unfold write
  simp only [hfd]
  rw [if_pos hheld]

end Pipe
end OSNetWorkCode
