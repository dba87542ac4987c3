/-
# The TCP echo server with a process for each connection

`0215/tcp/tcp_backup_1/tcp_server.hpp`.  `TcpServer::start` accepts a
connection and forks; the child closes the listening socket and runs `service`
on the connection, the parent closes the connection and accepts the next one.
`service` is the one of the server with the pool, without the `close` at its
end: `exit(0)` follows it.  `SIGCHLD` is ignored, so that the parent waits for
nobody; if `fork` fails it goes on in the parent's branch.

`fork` copies the table of descriptors.  Which connection a number stands for
is therefore a question about a process, and a connection is open while some
process has it open under some number.  Connections are numbered in the order
of acceptance, children in the order in which they are made.  The buffer of
`service` and what `read` and `write` may answer are those of `TcpServer`; a
write to a peer that is gone may also kill the child (SIGPIPE).
-/

import OSNetWorkCode.Lib.FdTable
import OSNetWorkCode.Lib.Transition
import OSNetWorkCode.TcpServer.Model

namespace OSNetWorkCode
namespace ForkServer

open CString
open TcpServer (Buffer ReadResult Event fill)

/-- What a descriptor stands for: a connection, the listening socket, or one of
the files that were open before. -/
inductive File
  | other
  | listen
  | conn (c : ℕ)
  deriving DecidableEq

/-- Where a child stands. -/
inductive ChildPc
  /-- Before `close(__listen_sock)`. -/
  | start
  /-- Before `service`. -/
  | service
  | read (buffer : Buffer)
  | write (buffer : Buffer)
  /-- `service` has returned. -/
  | exit
  | exited
  /-- By SIGPIPE. -/
  | killed
  /-- `strlen` has read past the buffer. -/
  | undefined

/-- The process is no more. -/
def ChildPc.Ended : ChildPc → Prop
  | .exited | .killed => True
  | _ => False

/-- A child, with the `service_sock` that it has from its parent and what was
open there when it was made. -/
structure Child where
  table : FdTable File
  serviceSock : ℕ
  file : Option File
  pc : ChildPc

/-- Where the parent stands in `start`. -/
inductive ParentPc
  | accept
  /-- Before `fork`, with `service_sock`. -/
  | fork (serviceSock : ℕ)
  /-- Before `close(service_sock)`. -/
  | close (serviceSock : ℕ)

/-- The processes of the server, and what has happened on the connections. -/
structure State where
  parent : ParentPc
  /-- The parent's descriptors. -/
  table : FdTable File
  /-- `__listen_sock`. -/
  listenSock : ℕ
  children : ℕ → Child
  /-- How many children there are. -/
  forked : ℕ
  /-- How many connections there are. -/
  accepted : ℕ
  /-- What the children have read and written on connections, and which child it was. -/
  log : List (ℕ × Event)

namespace State

/-- Child `j` is now `c`. -/
def setChild (s : State) (j : ℕ) (c : Child) : State :=
  { s with children := Function.update s.children j c }

/-- Child `j` is at another place. -/
def goto (s : State) (j : ℕ) (pc : ChildPc) : State := s.setChild j { s.children j with pc := pc }

/-- The process of child `j` is no more. -/
def ends (s : State) (j : ℕ) (pc : ChildPc) : State :=
  s.setChild j { s.children j with table := .empty, pc := pc }

/-- Child `j` has done something on a connection. -/
def record (s : State) (j : ℕ) (e : Event) : State := { s with log := s.log ++ [(j, e)] }

end State

/-- What a process cannot know beforehand. -/
inductive Choice
  | go
  /-- `accept` or `fork` fails. -/
  | fail
  /-- What the stack holds where `service` puts its buffer. -/
  | stack (buffer : Buffer)
  | read (r : ReadResult)
  /-- How many bytes `write` took, or that it failed. -/
  | write (r : Option ℕ)
  | sigpipe

/-! ### The parent -/

/-- `initServer`: what `socket`, `bind` and `listen` come to, and where
`__listen_sock` is then. -/
def initServer (socket bind listen : Bool) (table : FdTable File) : Except ℕ (ℕ × FdTable File) :=
  if !socket then .error 2
  else if !bind then .error 3
  else if !listen then .error 4
  else .ok (table.lowest, table.openLowest .listen)

/-- A step of `start`; `none` where the choice is none of this place. -/
def parentStep (choice : Choice) (s : State) : Option State :=
  match s.parent, choice with
  -- logged, and tried again
  | .accept, .fail => some s
  | .accept, .go =>
    match s.table.get s.listenSock with
    | some .listen =>
      some { s with
        parent := .fork s.table.lowest
        table := s.table.openLowest (.conn s.accepted)
        accepted := s.accepted + 1 }
    | _ => none
  | .fork serviceSock, .go =>
    some { s.setChild s.forked ⟨s.table, serviceSock, s.table.get serviceSock, .start⟩ with
      parent := .close serviceSock
      forked := s.forked + 1 }
  | .fork serviceSock, .fail => some { s with parent := .close serviceSock }
  | .close serviceSock, .go =>
    some { s with parent := .accept, table := s.table.close serviceSock }
  | _, _ => none

/-! ### A child -/

/-- `read(sock, buffer, sizeof(buffer) - 1)` and what depends on its result. -/
def read (j : ℕ) (buffer : Buffer) (r : ReadResult) (s : State) : Option State :=
  match (s.children j).table.get (s.children j).serviceSock, r with
  | some (.conn c), .data bytes _ fits =>
    some ((s.goto j (.write (fill buffer bytes fits))).record j (.read c bytes))
  | some .other, .data bytes _ fits => some (s.goto j (.write (fill buffer bytes fits)))
  -- the listening socket is not connected, a closed descriptor is none
  | some .listen, .data .. | none, .data .. => none
  | _, .eof => some (s.goto j .exit)
  | _, .error => some (s.goto j .exit)

/-- `write(sock, buffer, strlen(buffer))`; its result is not looked at. -/
def write (j : ℕ) (buffer : Buffer) (r : Option ℕ) (s : State) : State :=
  match strlen buffer.1, (s.children j).table.get (s.children j).serviceSock with
  | none, _ => s.goto j .undefined
  | some n, some (.conn c) => (s.goto j (.read buffer)).record j (.wrote c (buffer.1.take n) r)
  | some _, _ => s.goto j (.read buffer)

/-- A step of child `j`. -/
def childStep (j : ℕ) (choice : Choice) (s : State) : Option State :=
  match (s.children j).pc, choice with
  | .start, .go =>
    some (s.setChild j { s.children j with
      table := (s.children j).table.close s.listenSock, pc := .service })
  | .service, .stack buffer => some (s.goto j (.read buffer))
  | .read buffer, .read r => read j buffer r s
  | .write buffer, .write r => some (write j buffer r s)
  | .write _, .sigpipe => some (s.ends j .killed)
  | .exit, .go => some (s.ends j .exited)
  | _, _ => none

/-! ### The system -/

/-- Who steps, and what it meets. -/
inductive Action
  | parent (choice : Choice)
  | child (j : ℕ) (choice : Choice)

/-- A step of some process. -/
def step (s : State) : Action → Option State
  | .parent choice => parentStep choice s
  | .child j choice => if j < s.forked then childStep j choice s else none

/-- The descriptors of a process that is about to become the server: none is a
socket of it. -/
def Start := { table : FdTable File // ∀ fd f, table.get fd = some f → f = .other }

/-- `initServer` has succeeded, nothing is accepted. -/
def State.new (listenSock : ℕ) (table : FdTable File) : State where
  parent := .accept
  table := table
  listenSock := listenSock
  children := fun _ => ⟨.empty, 0, none, .start⟩
  forked := 0
  accepted := 0
  log := []

/-- The runs of the server. -/
def sys (base : Start) : System State :=
  .along (fun s => ∃ listenSock table, initServer true true true base.1 = .ok (listenSock, table) ∧
    s = .new listenSock table) step System.anything

/-! ### What a step does -/

/-- The steps of the parent. -/
inductive ParentStep (s : State) : State → Prop
  | missed : ParentStep s s
  | accept (hpc : s.parent = .accept) (hlisten : s.table.get s.listenSock = some .listen) :
    ParentStep s { s with
      parent := .fork s.table.lowest
      table := s.table.openLowest (.conn s.accepted)
      accepted := s.accepted + 1 }
  | fork {serviceSock : ℕ} (hpc : s.parent = .fork serviceSock) :
    ParentStep s { s.setChild s.forked ⟨s.table, serviceSock, s.table.get serviceSock, .start⟩ with
      parent := .close serviceSock
      forked := s.forked + 1 }
  | dropped {serviceSock : ℕ} (hpc : s.parent = .fork serviceSock) :
    ParentStep s { s with parent := .close serviceSock }
  | close {serviceSock : ℕ} (hpc : s.parent = .close serviceSock) :
    ParentStep s { s with parent := .accept, table := s.table.close serviceSock }

/-- The steps of child `j`, by what they make of it and add to the log. -/
inductive ChildStep (s : State) (j : ℕ) : Child → List (ℕ × Event) → Prop
  | start (hpc : (s.children j).pc = .start) : ChildStep s j { s.children j with
      table := (s.children j).table.close s.listenSock, pc := .service } []
  | service {buffer : Buffer} (hpc : (s.children j).pc = .service) :
    ChildStep s j { s.children j with pc := .read buffer } []
  | read {buffer : Buffer} {c : ℕ} {bytes fits} (hpc : (s.children j).pc = .read buffer)
    (hfile : (s.children j).table.get (s.children j).serviceSock = some (.conn c)) :
    ChildStep s j { s.children j with pc := .write (fill buffer bytes fits) } [(j, .read c bytes)]
  | readOther {buffer : Buffer} {bytes fits} (hpc : (s.children j).pc = .read buffer)
    (hfile : (s.children j).table.get (s.children j).serviceSock = some .other) :
    ChildStep s j { s.children j with pc := .write (fill buffer bytes fits) } []
  | hungUp {buffer : Buffer} (hpc : (s.children j).pc = .read buffer) :
    ChildStep s j { s.children j with pc := .exit } []
  | write {buffer : Buffer} {n c : ℕ} {r} (hpc : (s.children j).pc = .write buffer)
    (hlen : strlen buffer.1 = some n)
    (hfile : (s.children j).table.get (s.children j).serviceSock = some (.conn c)) :
    ChildStep s j { s.children j with pc := .read buffer } [(j, .wrote c (buffer.1.take n) r)]
  | writeOther {buffer : Buffer} (hpc : (s.children j).pc = .write buffer)
    (hfile : ∀ c, (s.children j).table.get (s.children j).serviceSock ≠ some (.conn c)) :
    ChildStep s j { s.children j with pc := .read buffer } []
  | undefined {buffer : Buffer} (hpc : (s.children j).pc = .write buffer)
    (hlen : strlen buffer.1 = none) : ChildStep s j { s.children j with pc := .undefined } []
  | exit (hpc : (s.children j).pc = .exit) :
    ChildStep s j { s.children j with table := .empty, pc := .exited } []
  | killed {buffer : Buffer} (hpc : (s.children j).pc = .write buffer) :
    ChildStep s j { s.children j with table := .empty, pc := .killed } []

variable {s s' : State}

/-- What the parent's step makes is one of its steps.  The proofs about runs
are by cases on these and do not unfold `parentStep`. -/
theorem parentStep_cases {choice : Choice} (h : parentStep choice s = some s') :
    ParentStep s s' := by
  unfold parentStep at h
  split at h
  · obtain rfl := Option.some.inj h
    exact .missed
  · split at h
    · obtain rfl := Option.some.inj h
      exact .accept (by assumption) (by assumption)
    · cases h
  · obtain rfl := Option.some.inj h
    exact .fork (by assumption)
  · obtain rfl := Option.some.inj h
    exact .dropped (by assumption)
  · obtain rfl := Option.some.inj h
    exact .close (by assumption)
  · cases h

/-- Child `j` is now `c` and has done `es`. -/
def State.does (s : State) (j : ℕ) (c : Child) (es : List (ℕ × Event)) : State :=
  { s.setChild j c with log := s.log ++ es }

/-- A child that does nothing on a connection leaves the log. -/
theorem State.does_nil (s : State) (j : ℕ) (c : Child) : s.does j c [] = s.setChild j c := by
  unfold State.does
  rw [List.append_nil]
  rfl

/-- What `read` makes is one of a child's steps, by what the descriptor stands
for and what the kernel answers. -/
theorem read_cases {j : ℕ} {buffer : Buffer} {r : ReadResult}
    (hpc : (s.children j).pc = .read buffer) (h : read j buffer r s = some s') :
    ∃ c es, s' = s.does j c es ∧ ChildStep s j c es := by
  unfold read at h
  split at h
  · obtain rfl := Option.some.inj h
    exact ⟨_, _, rfl, .read hpc (by assumption)⟩
  · obtain rfl := Option.some.inj h
    exact ⟨_, _, (s.does_nil j _).symm, .readOther hpc (by assumption)⟩
  · cases h
  · cases h
  · obtain rfl := Option.some.inj h
    exact ⟨_, _, (s.does_nil j _).symm, .hungUp hpc⟩
  · obtain rfl := Option.some.inj h
    exact ⟨_, _, (s.does_nil j _).symm, .hungUp hpc⟩

/-- What `write` makes is one of a child's steps. -/
theorem write_cases (s : State) {j : ℕ} {buffer : Buffer} (r : Option ℕ)
    (hpc : (s.children j).pc = .write buffer) :
    ∃ c es, write j buffer r s = s.does j c es ∧ ChildStep s j c es := by
  unfold write
  split
  · exact ⟨_, _, (s.does_nil j _).symm, .undefined hpc (by assumption)⟩
  · exact ⟨_, _, rfl, .write hpc (by assumption) (by assumption)⟩
  · rename_i hfile
    exact ⟨_, _, (s.does_nil j _).symm, .writeOther hpc hfile⟩

/-- What a child's step makes is one of its steps, with the events it adds; the
rest of the state stays as it is (`State.does`). -/
theorem childStep_cases {j : ℕ} {choice : Choice} (h : childStep j choice s = some s') :
    ∃ c es, s' = s.does j c es ∧ ChildStep s j c es := by
  unfold childStep at h
  split at h
  · obtain rfl := Option.some.inj h
    exact ⟨_, _, (s.does_nil j _).symm, .start (by assumption)⟩
  · obtain rfl := Option.some.inj h
    exact ⟨_, _, (s.does_nil j _).symm, .service (by assumption)⟩
  · exact read_cases (by assumption) h
  · obtain rfl := Option.some.inj h
    exact write_cases s _ (by assumption)
  · obtain rfl := Option.some.inj h
    exact ⟨_, _, (s.does_nil j _).symm, .killed (by assumption)⟩
  · obtain rfl := Option.some.inj h
    exact ⟨_, _, (s.does_nil j _).symm, .exit (by assumption)⟩
  · cases h

/-- **Every step is one of the parent or one of a child.**  The invariants are
checked rule by rule, those of the parent and those of a child by
themselves. -/
theorem step_cases {a : Action} (h : step s a = some s') :
    ParentStep s s' ∨ ∃ j < s.forked, ∃ c es, s' = s.does j c es ∧ ChildStep s j c es := by
  cases a with
  | parent choice => exact .inl (parentStep_cases h)
  | child j choice =>
    unfold step at h
    simp only at h
    split_ifs at h with hj
    exact .inr ⟨j, hj, childStep_cases h⟩

end ForkServer
end OSNetWorkCode
