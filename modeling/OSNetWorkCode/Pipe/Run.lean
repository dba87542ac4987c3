/-
# The child prints everything, and both end

Two facts carry the program.  The bytes are kept: what the child has printed
and what is in the pipe are together what the parent has sent (`Inv.flow`).
And each end of the pipe is open where it should be and nowhere else (`Ends`):
the child has closed its own write end before it reads, so that the parent's is
the last one and `read` returns 0 as soon as the parent has closed it and the
pipe is empty, and not before; and the child has the read end open as long as
the parent writes, so that SIGPIPE does not come.

No step is idle: `rank` gets smaller with each.  So every run ends, and where
it ends nothing is left to do.
-/

import OSNetWorkCode.Lib.Inevitable
import OSNetWorkCode.Pipe.Model

namespace OSNetWorkCode
namespace Pipe

open CString

variable {cap : ℕ} {pids : Pids} {s s' : State}

/-! ### The two ends -/

/-- The parent has the read end open. -/
def ParentPc.Reads : ParentPc → Prop
  | .fork | .closeRead => True
  | _ => False

/-- The parent has the write end open. -/
def ParentPc.Writes : ParentPc → Prop
  | .fork | .closeRead | .send _ | .test _ | .closeWrite => True
  | _ => False

/-- The child has the read end open. -/
def ChildPc.Reads : ChildPc → Prop
  | .start | .read | .exit => True
  | _ => False

/-- The child has the write end open. -/
def ChildPc.Writes : ChildPc → Prop
  | .start => True
  | _ => False

/-- Who has which end open. -/
structure Ends (s : State) : Prop where
  read : s.table.Only .read s.parent.Reads s.pipefd.1
  write : s.table.Only .write s.parent.Writes s.pipefd.2
  childRead : s.child.table.Only .read s.child.pc.Reads s.pipefd.1
  childWrite : s.child.table.Only .write s.child.pc.Writes s.pipefd.2

/-- The read end is open while one of the two has it. -/
theorem Ends.held_read (h : Ends s) : s.Held .read ↔ s.parent.Reads ∨ s.child.pc.Reads :=
  or_congr h.read.holds_iff h.childRead.holds_iff

/-- The write end is open while one of the two has it.  The child closes its
own before it reads. -/
theorem Ends.held_write (h : Ends s) : s.Held .write ↔ s.parent.Writes ∨ s.child.pc.Writes :=
  or_congr h.write.holds_iff h.childWrite.holds_iff

/-! ### The bytes -/

/-- The texts printed by the child. -/
def texts (screen : List Line) : List (List UInt8) :=
  screen.filterMap fun
    | .message _ text => some text
    | _ => none

/-- The first `n` messages, one behind the other. -/
def stream (father n : ℕ) : List UInt8 := ((List.range n).map (message father)).flatten

/-- What is printed comes behind what was printed before. -/
theorem texts_append (screen screen' : List Line) :
    texts (screen ++ screen') = texts screen ++ texts screen' :=
  List.filterMap_append ..

/-- One message more. -/
theorem stream_succ (father n : ℕ) : stream father (n + 1) = stream father n ++ message father n := by
  simp [stream, List.range_succ]

/-- No prefix of the messages has a zero in it.  So a read may cut them
anywhere, and prints all it has taken. -/
theorem zero_notMem_stream (father n : ℕ) : 0 ∉ stream father n := by
  simp [stream, zero_notMem_message]

/-- How many messages are sent at a place. -/
def ParentPc.sent : ParentPc → ℕ
  | .send count | .test count => count
  | .closeWrite | .wait | .returned => messages
  | _ => 0

/-! ### The invariant -/

/-- The child is not behind its loop. -/
def Going (s : State) : Prop :=
  (s.child.pc = .start ∨ s.child.pc = .read) ∧ .childQuit ∉ s.screen

/-- The child has found the pipe empty, and said so behind everything else. -/
def Gone (s : State) : Prop :=
  s.pipe = [] ∧ ∃ before, s.screen = before ++ [.childQuit] ∧ .fatherQuit ∈ before ∧
    .childQuit ∉ before

/-- How far the child may be, and the screen, where the parent is at `pc`. -/
def Together (s : State) : ParentPc → Prop
  | .pipe | .fork | .aborted => s.child.pc = .unborn ∧ s.pipe = [] ∧ s.screen = []
  | .closeRead => Going s
  | .send count => count < messages ∧ Going s
  | .test count => count ≤ messages ∧ Going s
  | .closeWrite => Going s ∧ .fatherQuit ∈ s.screen
  | .wait => Going s ∧ .fatherQuit ∈ s.screen ∨
    (s.child.pc = .exit ∨ s.child.pc = .exited) ∧ Gone s
  | .returned => s.child.pc = .exited ∧ Gone s
  | .killed => False

/-- The invariant of both processes: who has which end open, how far they are
with respect to each other, and where the bytes are. -/
structure Inv (father : ℕ) (s : State) : Prop where
  ends : Ends s
  together : Together s s.parent
  flow : (texts s.screen).flatten ++ s.pipe = stream father s.parent.sent

/-- Before `pipe` nothing is open and nothing was said. -/
theorem inv_new (father : ℕ) {table : FdTable End} {sendBuffer buffer : TcpServer.Buffer}
    (h : ∀ fd e, table.get fd = some e → e = .other) :
    Inv father (.new table sendBuffer buffer) := by
  refine ⟨⟨fun fd => ?_, fun fd => ?_, ?_, ?_⟩, ⟨rfl, rfl, rfl⟩, rfl⟩
  · exact iff_of_false (fun hfd => nomatch h fd _ hfd) fun hfd => hfd.1
  · exact iff_of_false (fun hfd => nomatch h fd _ hfd) fun hfd => hfd.1
  · exact FdTable.only_empty _ id _
  · exact FdTable.only_empty _ id _

/-- The state behind a message sent. -/
def State.behind (s : State) (father count : ℕ) : State :=
  { s with
    sendBuffer := format s.sendBuffer (message father count)
    parent := .test (count + 1)
    pipe := s.pipe ++ message father count }

/-- **Sending one message keeps the invariant:** what is in the pipe now is
what was missing to one more message sent. -/
theorem Inv.sent {father count : ℕ} (h : Inv father s) (hpc : s.parent = .send count) :
    Inv father (s.behind father count) := by
  obtain ⟨⟨hread, hwrite, hchildRead, hchildWrite⟩, htogether, hflow⟩ := h
  rw [hpc] at hread hwrite htogether hflow
  refine ⟨⟨hread, hwrite, hchildRead, hchildWrite⟩, ⟨htogether.1, htogether.2⟩, ?_⟩
  show (texts s.screen).flatten ++ (s.pipe ++ message father count) = stream father (count + 1)
  rw [← List.append_assoc, hflow]
  exact (stream_succ father count).symm

/-- The child reads, and is there to read, while the parent sends: it leaves
its loop only when the parent has closed the write end. -/
theorem Inv.can_write {father count : ℕ} (h : Inv father s) (hpc : s.parent = .send count) :
    s.table.get s.pipefd.2 = some .write ∧ s.Held .read := by
  have htogether := h.together
  have hwrite := h.ends.write
  rw [hpc] at htogether hwrite
  obtain ⟨-, hgoing, -⟩ := htogether
  refine ⟨(hwrite _).2 ⟨trivial, rfl⟩, h.ends.held_read.2 (.inr ?_)⟩
  rcases hgoing with hchild | hchild <;> rw [hchild] <;> trivial

/-- **A message waits for room, and is sent whole.**  It is short enough for
the buffer, `strlen` counts all of it, and a write of less than `PIPE_BUF` is
not divided. -/
theorem Inv.write_message (cap : ℕ) {father count : ℕ} (hfather : father < 2 ^ 31) (h : Inv father s)
    (hpc : s.parent = .send count) :
    (message father count).length ≤ most ∧
      strlen (format s.sendBuffer (message father count)).1 = some (message father count).length ∧
      write cap count (message father count).length
          { s with sendBuffer := format s.sendBuffer (message father count) } =
        if s.pipe.length + (message father count).length ≤ cap then some (s.behind father count)
        else none := by
  have htogether := h.together
  rw [hpc] at htogether
  have hle := length_message_le hfather htogether.1
  obtain ⟨hlen, htake⟩ := strlen_format (b := s.sendBuffer) (zero_notMem_message father count) hle
  obtain ⟨hfd, hheld⟩ := h.can_write hpc
  refine ⟨hle, hlen, ?_⟩
  rw [write_eq (s := { s with sendBuffer := format s.sendBuffer _ }) hfd hheld, htake]
  rfl

/-- **A step of the parent keeps the invariant.**  Up to `fork` the child's
part is that nobody is there; behind it the two tables are apart, and a message
that is written is one more in the stream. -/
theorem ParentStep.inv (hfather : pids.father < 2 ^ 31) (h : ParentStep cap pids s s')
    (hi : Inv pids.father s) : Inv pids.father s' := by
  obtain ⟨⟨hread, hwrite, hchildRead, hchildWrite⟩, htogether, hflow⟩ := id hi
  cases h with
  | abort hpc =>
    have hsent : s.parent.sent = 0 ∧ Together s .aborted := by
      rcases hpc with hpc | hpc <;> rw [hpc] at htogether ⊢ <;> exact ⟨rfl, htogether⟩
    rw [hsent.1] at hflow
    exact ⟨⟨FdTable.only_empty _ id _, FdTable.only_empty _ id _, hchildRead, hchildWrite⟩,
      hsent.2, hflow⟩
  | pipe hpc =>
    rw [hpc] at hread hwrite htogether hflow
    have hunborn : s.child.pc = .unborn := htogether.1
    rw [hunborn] at hchildRead hchildWrite
    refine ⟨⟨?_, ?_, ?_, ?_⟩, htogether, hflow⟩
    · exact (hread.opened id trivial).openLowest (by decide)
    · exact (hwrite.openLowest (by decide)).opened id trivial
    · exact (hchildRead.move id _).congr (by rw [hunborn])
    · exact (hchildWrite.move id _).congr (by rw [hunborn])
  | fork hpc =>
    rw [hpc] at hread hwrite htogether hflow
    obtain ⟨-, hpipe, hscreen⟩ := htogether
    refine ⟨⟨hread, hwrite, hread, hwrite⟩, ⟨.inl rfl, ?_⟩, hflow⟩
    show _ ∉ s.screen
    rw [hscreen]
    exact List.not_mem_nil
  | closeRead hpc =>
    rw [hpc] at hread hwrite htogether hflow
    refine ⟨⟨hread.closed id, ?_, hchildRead, hchildWrite⟩, ⟨by decide, htogether⟩, hflow⟩
    exact (hwrite.close ((hread _).2 ⟨trivial, rfl⟩) (by decide)).congr Iff.rfl
  | @send count n s' hpc hlen hw =>
    obtain ⟨-, hlen', hwrite'⟩ := hi.write_message cap hfather hpc
    rw [hlen'] at hlen
    obtain rfl := Option.some.inj hlen
    rw [hwrite'] at hw
    split_ifs at hw
    obtain rfl := Option.some.inj hw
    exact hi.sent hpc
  | @again count hpc hcount =>
    rw [hpc] at hread hwrite htogether hflow
    refine ⟨⟨hread, hwrite, hchildRead, hchildWrite⟩, ⟨?_, htogether.2⟩, hflow⟩
    exact Nat.lt_of_le_of_ne htogether.1 hcount
  | quit hpc =>
    rw [hpc] at hread hwrite htogether hflow
    obtain ⟨-, hgoing, hquit⟩ := htogether
    refine ⟨⟨hread, hwrite, hchildRead, hchildWrite⟩, ⟨⟨hgoing, ?_⟩, ?_⟩, ?_⟩
    · simpa using hquit
    · simp
    · rw [texts_append]
      show (texts s.screen ++ []).flatten ++ s.pipe = _
      rw [List.append_nil]
      exact hflow
  | closeWrite hpc =>
    rw [hpc] at hread hwrite htogether hflow
    refine ⟨⟨?_, hwrite.closed id, hchildRead, hchildWrite⟩, .inl htogether, hflow⟩
    exact (hread.close ((hwrite _).2 ⟨trivial, rfl⟩) (by decide)).congr Iff.rfl
  | wait hpc hend =>
    rw [hpc] at hread hwrite htogether hflow
    refine ⟨⟨hread, hwrite, hchildRead, hchildWrite⟩, ⟨hend, ?_⟩, hflow⟩
    rcases htogether with ⟨⟨hchild | hchild, -⟩, -⟩ | ⟨-, hgone⟩
    · rw [hend] at hchild
      cases hchild
    · rw [hend] at hchild
      cases hchild
    · exact hgone

/-- **`read` returns 0 only when the parent waits.**  Its last line is on the
screen by then, and the child's is not. -/
theorem Inv.waits {father : ℕ} (h : Inv father s) (hpc : s.child.pc = .read)
    (hheld : ¬s.Held .write) :
    s.parent = .wait ∧ .fatherQuit ∈ s.screen ∧ .childQuit ∉ s.screen := by
  have htogether := h.together
  rw [h.ends.held_write, not_or] at hheld
  cases hparent : s.parent with
  | pipe | fork | aborted | returned =>
    rw [hparent] at htogether
    have hchild := htogether.1
    rw [hpc] at hchild
    cases hchild
  | closeRead | send | test | closeWrite =>
    rw [hparent] at hheld
    exact absurd trivial hheld.1
  | wait =>
    rw [hparent] at htogether
    rcases htogether with ⟨⟨-, hno⟩, hquit⟩ | ⟨hchild | hchild, -⟩
    · exact ⟨rfl, hquit, hno⟩
    · rw [hpc] at hchild
      cases hchild
    · rw [hpc] at hchild
      cases hchild
  | killed =>
    rw [hparent] at htogether
    exact htogether.elim

/-- Where the child goes on, the rest of the invariant does too: what is said
of the parent's place asks only that the child is still reading and has not
printed its last line. -/
theorem Together.goes {pc : ParentPc} {screen : List Line} (h : Together s pc)
    (hchild : s.child.pc = .start ∨ s.child.pc = .read)
    (hgoing : s'.child.pc = .start ∨ s'.child.pc = .read)
    (hscreen : s'.screen = s.screen ++ screen) (hno : .childQuit ∉ screen) : Together s' pc := by
  have hne : ∀ {pc}, s.child.pc = pc → pc = .start ∨ pc = .read := fun h => h ▸ hchild
  have hgo : Going s → Going s' := fun ⟨_, hquit⟩ => by
    refine ⟨hgoing, ?_⟩
    rw [hscreen, List.mem_append]
    exact not_or.2 ⟨hquit, hno⟩
  have hfather : .fatherQuit ∈ s.screen → .fatherQuit ∈ s'.screen := fun hmem => by
    rw [hscreen]
    exact List.mem_append_left _ hmem
  cases pc with
  | pipe | fork | aborted | returned => exact absurd (hne h.1) (by simp)
  | closeRead => exact hgo h
  | send count | test count => exact ⟨h.1, hgo h.2⟩
  | closeWrite => exact ⟨hgo h.1, hfather h.2⟩
  | wait =>
    rcases h with ⟨hg, hf⟩ | ⟨hend | hend, -⟩
    · exact .inl ⟨hgo hg, hfather hf⟩
    · exact absurd (hne hend) (by simp)
    · exact absurd (hne hend) (by simp)
  | killed => exact h

/-- Behind the loop of the child the parent waits.  It has closed its write
end, or the child would not have found the end of the file. -/
theorem Together.gone {pc : ParentPc} (h : Together s pc) (hchild : s.child.pc = .exit) :
    pc = .wait ∧ Gone s := by
  cases pc with
  | wait =>
    rcases h with ⟨⟨hgoing, -⟩, -⟩ | ⟨-, hgone⟩
    · simp [hchild] at hgoing
    · exact ⟨rfl, hgone⟩
  | killed => exact h.elim
  | _ => simp [Together, Going, hchild] at h

/-- **A step of the child keeps the invariant.**  What it prints it has taken
out of the pipe, and no byte of that is a zero.  Where it finds the end of the
file the parent is waiting for it. -/
theorem ChildStep.inv {father : ℕ} (h : ChildStep pids s s') (hi : Inv father s) :
    Inv father s' := by
  obtain ⟨⟨hread, hwrite, hchildRead, hchildWrite⟩, htogether, hflow⟩ := id hi
  cases h with
  | start hpc =>
    rw [hpc] at hchildRead hchildWrite
    refine ⟨⟨hread, hwrite, ?_, hchildWrite.closed id⟩, ?_, hflow⟩
    · exact (hchildRead.close ((hchildWrite _).2 ⟨trivial, rfl⟩) (by decide)).congr Iff.rfl
    · exact htogether.goes (.inl hpc) (.inr rfl) (List.append_nil _).symm List.not_mem_nil
  | eof hpc hfd hempty hheld =>
    rw [hpc] at hchildRead hchildWrite
    obtain ⟨hwait, hfather, hno⟩ := hi.waits hpc hheld
    refine ⟨⟨hread, hwrite, hchildRead, hchildWrite⟩, ?_, ?_⟩
    · show Together _ s.parent
      rw [hwait]
      exact .inr ⟨.inl rfl, hempty, s.screen, rfl, hfather, hno⟩
    · rw [texts_append]
      show (texts s.screen ++ []).flatten ++ s.pipe = _
      rw [List.append_nil, hflow]
  | read hpc hfd hpos =>
    refine ⟨⟨hread, hwrite, hchildRead, hchildWrite⟩, ?_, ?_⟩
    · exact htogether.goes (.inr hpc) (.inr hpc) rfl (by simp)
    · -- what is printed is what was taken, for there is no zero in it
      have hzero : 0 ∉ s.pipe.take most := fun hmem => by
        refine zero_notMem_stream father s.parent.sent ?_
        rw [← hflow]
        exact List.mem_append_right _ (List.mem_of_mem_take hmem)
      rw [texts_append]
      show (texts s.screen ++ [text (s.pipe.take most)]).flatten ++ s.pipe.drop most = _
      rw [text_eq_self hzero, List.flatten_append, List.flatten_singleton, List.append_assoc,
        List.take_append_drop, hflow]
  | bad hpc hfd =>
    rw [hpc] at hchildRead
    exact absurd ((hchildRead _).2 ⟨trivial, rfl⟩) hfd
  | exit hpc =>
    refine ⟨⟨hread, hwrite, FdTable.only_empty _ id _, FdTable.only_empty _ id _⟩, ?_, hflow⟩
    obtain ⟨hwait, hgone⟩ := htogether.gone hpc
    show Together _ s.parent
    rw [hwait]
    exact .inr ⟨.inr rfl, hgone⟩

/-- **The invariant holds in every reachable state,** by the two step lemmas.
That the number of the father is an `int` is what lets his messages be printed
by `%d`. -/
theorem inv (hfather : pids.father < 2 ^ 31) (hs : (sys cap pids).Reachable s) :
    Inv pids.father s := by
  refine hs.invariant ?_ ?_
  · rintro s ⟨table, sendBuffer, buffer, htable, rfl⟩
    exact inv_new _ htable
  · rintro s s' - hi (⟨fails, h⟩ | h)
    · exact (parentStep_cases h).inv hfather hi
    · exact (childStep_cases h).inv hi

/-! ### Every run ends -/

/-- How many steps the parent has before it, two for each message. -/
def ParentPc.rank : ParentPc → ℕ
  | .pipe => 2 * messages + 6
  | .fork => 2 * messages + 5
  | .closeRead => 2 * messages + 4
  | .send count => 2 * (messages - count) + 3
  | .test count => 2 * (messages - count) + 4
  | .closeWrite => 2
  | .wait => 1
  | .returned | .aborted | .killed => 0

/-- How many steps the child has before it, its reads apart. -/
def ChildPc.rank : ChildPc → ℕ
  | .unborn | .start => 3
  | .read => 2
  | .exit => 1
  | .exited => 0

/-- A message is less than a step of the parent is worth. -/
def rank (s : State) : ℕ := (most + 1) * s.parent.rank + s.child.pc.rank + s.pipe.length

/-- A step of the parent makes the rank smaller.  What it writes adds to the
rank, but less than one step is worth. -/
theorem ParentStep.rank_lt (hfather : pids.father < 2 ^ 31) (h : ParentStep cap pids s s')
    (hi : Inv pids.father s) : rank s' < rank s := by
  have hmost : most = 1023 := rfl
  have hten : messages = 10 := rfl
  have htogether := hi.together
  cases h with
  | abort hpc =>
    rcases hpc with hpc | hpc <;>
      simp only [rank, State.dies, hpc, ParentPc.rank, hmost, hten] <;> omega
  | pipe hpc => simp only [rank, hpc, ParentPc.rank, hmost, hten]; omega
  | fork hpc =>
    rw [hpc] at htogether
    simp only [rank, hpc, htogether.1, ParentPc.rank, ChildPc.rank, hmost, hten]
    omega
  | closeRead hpc | closeWrite hpc | wait hpc =>
    simp only [rank, hpc, ParentPc.rank, hmost, hten]
    omega
  | @send count n s' hpc hlen hw =>
    obtain ⟨hle, hlen', hwrite'⟩ := hi.write_message cap hfather hpc
    rw [hlen'] at hlen
    obtain rfl := Option.some.inj hlen
    rw [hwrite'] at hw
    split_ifs at hw
    obtain rfl := Option.some.inj hw
    rw [hpc] at htogether
    have hlt : count < messages := htogether.1
    simp only [State.behind, rank, hpc, ParentPc.rank, List.length_append, hmost, hten] at *
    omega
  | again hpc hcount | quit hpc =>
    simp only [rank, hpc, ParentPc.rank, hmost, hten]
    omega

/-- A step of the child makes the rank smaller: a read takes one byte at least,
and at the end of the file the child goes on to `exit`. -/
theorem ChildStep.rank_lt {father : ℕ} (h : ChildStep pids s s') (hi : Inv father s) :
    rank s' < rank s := by
  cases h with
  | start hpc | eof hpc | exit hpc =>
    simp only [rank, hpc, ChildPc.rank]
    omega
  | read hpc hfd hpos =>
    have hlen := List.length_pos_iff.2 hpos
    have hmost : most = 1023 := rfl
    simp only [rank, List.length_drop]
    omega
  | bad hpc hfd =>
    have hread := hi.ends.childRead
    rw [hpc] at hread
    exact absurd ((hread _).2 ⟨trivial, rfl⟩) hfd

/-- Before its end the child has a step, if it has something to read or the
parent waits: then no write end is open, and the read returns. -/
theorem Inv.childStep {father : ℕ} (h : Inv father s)
    (hpc : s.child.pc = .start ∨ s.child.pc = .read) (hgo : s.pipe ≠ [] ∨ s.parent = .wait) :
    ∃ s', childStep pids s = some s' := by
  have hread := h.ends.childRead
  rcases hpc with hpc | hpc <;> rw [hpc] at hread
  · simp [Pipe.childStep, hpc]
  · have hfd : s.child.table.get s.pipefd.1 = some .read := (hread _).2 ⟨trivial, rfl⟩
    simp only [Pipe.childStep, hpc, Pipe.read, hfd]
    by_cases hempty : s.pipe.take most = []
    · have hnil : s.pipe = [] := by simpa [most, TcpServer.serviceSize] using hempty
      have hwait := hgo.resolve_left fun hne => hne hnil
      have hheld : ¬s.Held .write := by
        rw [h.ends.held_write, hwait, hpc]
        exact not_or.2 ⟨id, id⟩
      rw [if_pos hempty, if_neg hheld]
      exact ⟨_, rfl⟩
    · rw [if_neg hempty]
      exact ⟨_, rfl⟩

/-- Nothing is left to do. -/
structure Done (father : ℕ) (s : State) : Prop where
  returned : s.parent = .returned
  exited : s.child.pc = .exited
  arrived : (texts s.screen).flatten = stream father messages
  quit : ∃ before, s.screen = before ++ [.childQuit] ∧ .fatherQuit ∈ before ∧ .childQuit ∉ before

/-- `pipe` or `fork` has failed, and nothing has happened. -/
def Failed (s : State) : Prop := s.parent = .aborted ∧ s.child.pc = .unborn ∧ s.screen = []

/-- Where the parent has returned nothing is left to do: `wait` has found the
child exited, and the child leaves its loop with the pipe empty. -/
theorem Inv.done {father : ℕ} (h : Inv father s) (hpc : s.parent = .returned) : Done father s := by
  have htogether := h.together
  have hflow := h.flow
  rw [hpc] at htogether hflow
  obtain ⟨hexited, hnil, hquit⟩ := htogether
  rw [hnil, List.append_nil] at hflow
  exact ⟨hpc, hexited, hflow, hquit⟩

/-- **Where not everything is done, somebody has a step.**  If the pipe is full
the child can read; if it is empty and the parent has closed it, the child can
end.  The bound on the capacity is that of `PIPE_BUF`. -/
theorem Inv.progress (hcap : 4096 ≤ cap) (hfather : pids.father < 2 ^ 31)
    (h : Inv pids.father s) (hdone : ¬(Done pids.father s ∨ Failed s)) :
    ∃ s', Step cap pids s s' := by
  have htogether := h.together
  cases hpc : s.parent with
  | pipe | fork | closeRead | closeWrite =>
    exact ⟨_, .parent false (by simp only [parentStep, hpc]; rfl)⟩
  | aborted =>
    rw [hpc] at htogether
    exact absurd (.inr ⟨hpc, htogether.1, htogether.2.2⟩) hdone
  | returned => exact absurd (.inl (h.done hpc)) hdone
  | killed =>
    rw [hpc] at htogether
    exact htogether.elim
  | send count =>
    rw [hpc] at htogether
    obtain ⟨-, hgoing, -⟩ := htogether
    obtain ⟨hle, hlen, hwrite⟩ := h.write_message cap hfather hpc
    by_cases hroom : s.pipe.length + (message pids.father count).length ≤ cap
    · rw [if_pos hroom] at hwrite
      exact ⟨_, .parent false (by simp only [parentStep, hpc, hlen]; exact hwrite)⟩
    · -- a pipe without room is not empty
      have hmost : most = 1023 := rfl
      have hne : s.pipe ≠ [] := fun hnil => by
        rw [hnil] at hroom
        simp only [List.length_nil] at hroom
        omega
      obtain ⟨s', hs'⟩ := h.childStep hgoing (.inl hne)
      exact ⟨s', .child hs'⟩
  | test count =>
    by_cases hcount : count = messages
    · exact ⟨_, .parent false (by simp only [parentStep, hpc]; exact if_pos hcount)⟩
    · exact ⟨_, .parent false (by simp only [parentStep, hpc]; exact if_neg hcount)⟩
  | wait =>
    rw [hpc] at htogether
    rcases htogether with ⟨⟨hgoing, -⟩, -⟩ | ⟨hexit | hexited, -⟩
    · obtain ⟨s', hs'⟩ := h.childStep hgoing (.inr hpc)
      exact ⟨s', .child hs'⟩
    · exact ⟨_, .child (by simp only [Pipe.childStep, hexit]; rfl)⟩
    · exact ⟨_, .parent false (by simp only [parentStep, hpc, hexited]; rfl)⟩

/-- **All messages arrive, and both processes end.**  In every reachable state
what the child has printed is an initial part of the ten messages, and the
parent has not been killed; and every run, whoever is scheduled, comes to its
end: unless `pipe` or `fork` fails at the start, the parent has returned, the
child has exited, all of the messages were printed, in order, and the child's
last line stands behind the parent's. -/
theorem all_messages_arrive (hcap : 4096 ≤ cap) (hfather : pids.father < 2 ^ 31)
    (hs : (sys cap pids).Reachable s) :
    (texts s.screen).flatten <+: stream pids.father messages ∧ s.parent ≠ .killed ∧
      (sys cap pids).Inevitable (fun s => Done pids.father s ∨ Failed s) s := by
  have hi := inv hfather hs
  refine ⟨?_, fun hpc => ?_, ?_⟩
  · have hprinted : (texts s.screen).flatten <+: stream pids.father s.parent.sent :=
      ⟨_, hi.flow⟩
    refine hprinted.trans ?_
    have hle : s.parent.sent ≤ messages := by
      have htogether := hi.together
      cases hpc : s.parent with
      | send count =>
        rw [hpc] at htogether
        exact Nat.le_of_lt htogether.1
      | test count =>
        rw [hpc] at htogether
        exact htogether.1
      | closeWrite | wait | returned => exact Nat.le_refl _
      | _ => exact Nat.zero_le _
    obtain ⟨k, hk⟩ := Nat.exists_eq_add_of_le hle
    rw [hk, stream, stream, List.range_add, List.map_append, List.flatten_append]
    exact List.prefix_append _ _
  · have htogether := hi.together
    rw [hpc] at htogether
    exact htogether
  · refine hs.inevitable rank (fun s s' hreach hstep _ => ?_) fun s hreach hdone =>
      (inv hfather hreach).progress hcap hfather hdone
    have hi := inv hfather hreach
    rcases hstep with ⟨fails, h⟩ | h
    · exact (parentStep_cases h).rank_lt hfather hi
    · exact (childStep_cases h).rank_lt hi

/-- A terminal at 0, 1 and 2, and a pipe as large as those of Linux. -/
theorem all_messages_arrive_start : ∃ s, (sys 65536 ⟨100, 101⟩).Reachable s ∧ s.parent = .pipe ∧
    (sys 65536 ⟨100, 101⟩).Inevitable (fun s => Done 100 s ∨ Failed s) s := by
  obtain ⟨blank⟩ : Nonempty TcpServer.Buffer :=
    ⟨⟨List.replicate TcpServer.serviceSize 0, List.length_replicate⟩⟩
  have hstart : (sys 65536 ⟨100, 101⟩).Reachable
      (.new [some .other, some .other, some .other] blank blank) := by
    refine .init ⟨_, blank, blank, fun fd e h => ?_, rfl⟩
    match fd with
    | 0 | 1 | 2 => cases h; rfl
    | _ + 3 => cases h
  exact ⟨_, hstart, rfl, (all_messages_arrive (by decide) (by decide) hstart).2.2⟩

end Pipe
end OSNetWorkCode
