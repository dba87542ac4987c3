/-
# The TCP echo server over the thread pool

`0215/tcp/tcp_server.hpp`.  `TcpServer::start` starts the pool and then accepts
connections for ever; for each one it builds a `Task` that carries the
descriptor and hands it to `pushTask`.  A worker that calls the task runs
`service`: read into a buffer of 1024 bytes, put a terminator behind what was
read, write the buffer back as a C string, until the peer has closed the
connection or the read fails; then close the descriptor.  This is code around
the pool in the sense of `ThreadPool.User`.

The kernel's side is `Sockets`: which descriptor numbers are open, for which
connection.  `accept` may return any number that is not open.  Connections are
numbered in the order of acceptance; the number of a descriptor that was closed
is free for another one.  A call on a descriptor that is not open is undefined.
-/

import OSNetWorkCode.Lib.CString
import OSNetWorkCode.Net.Sockaddr
import OSNetWorkCode.ThreadPool.Model

namespace OSNetWorkCode
namespace TcpServer

open CString Net Pthread

/-- `SERVICE_SIZE`. -/
def serviceSize : ℕ := 1024

/-- `char buffer[SERVICE_SIZE]`. -/
def Buffer := { mem : List UInt8 // mem.length = serviceSize }

/-- `Task`; its function is always `service`. -/
structure Task where
  sock : ℕ
  peer : SockaddrIn
  deriving DecidableEq

/-- The open descriptors with their connections, and the number of connections
accepted so far. -/
structure Sockets where
  conn : ℕ → Option ℕ
  accepted : ℕ

/-- What `read` comes to: `s > 0` bytes, `0` or `-1`. -/
inductive ReadResult
  | data (bytes : List UInt8) (pos : bytes ≠ []) (fits : bytes.length ≤ serviceSize - 1)
  | eof
  | error

/-- The answers of the environment. -/
inductive Input
  | accept (r : Option (ℕ × SockaddrIn))
  /-- What the stack holds where `service` puts its buffer. -/
  | stack (buffer : Buffer)
  | read (r : ReadResult)
  /-- How many bytes `write` took, or that it failed. -/
  | write (r : Option ℕ)
  | step

/-- There is an answer at any time, namely that the kernel has nothing to
say. -/
instance : Inhabited Input := ⟨.step⟩

/-- What happens on the connections. -/
inductive Event
  | accepted (conn sock : ℕ)
  | read (conn : ℕ) (bytes : List UInt8)
  /-- The bytes handed to `write`, and what it made of them. -/
  | wrote (conn : ℕ) (bytes : List UInt8) (r : Option ℕ)
  | closed (conn : ℕ)

/-- Where the acceptor stands, or a worker in `service`. -/
inductive Place
  /-- At `__threadPool_ptr->run()`. -/
  | start
  | accept
  /-- The task is built, at `pushTask(t)`. -/
  | link (task : Task)
  | service (task : Task)
  | serviceRead (task : Task) (buffer : Buffer)
  | serviceWrite (task : Task) (buffer : Buffer)
  | serviceClose (task : Task)
  | served

/-- `accept`; a failure is logged and tried again. -/
def accept (i : Input) (x : Sockets) : Option (Outcome Sockets Place Event) :=
  match i with
  | .accept none => some (.next x .accept [])
  | .accept (some (sock, peer)) =>
    match x.conn sock with
    | none =>
      some (.next ⟨Function.update x.conn sock (some x.accepted), x.accepted + 1⟩
        (.link ⟨sock, peer⟩) [.accepted x.accepted sock])
    | some _ => none
  | _ => none

/-- `service` is entered: the buffer holds what the stack held. -/
def enter (task : Task) (i : Input) (x : Sockets) : Option (Outcome Sockets Place Event) :=
  match i with
  | .stack buffer => some (.next x (.serviceRead task buffer) [])
  | _ => none

/-- The bytes read, and behind them the terminator. -/
def fill (buffer : Buffer) (bytes : List UInt8) (fits : bytes.length ≤ serviceSize - 1) : Buffer :=
  ⟨(blit bytes buffer.1).set bytes.length 0, by
    rw [List.length_set, length_blit (by rw [buffer.2]; exact fits.trans (Nat.sub_le _ _))]
    exact buffer.2⟩

/-- `read(sock, buffer, sizeof(buffer) - 1)` and what depends on its result. -/
def read (task : Task) (buffer : Buffer) (i : Input) (x : Sockets) :
    Option (Outcome Sockets Place Event) :=
  match x.conn task.sock, i with
  | none, .read _ => some .undefined
  | some c, .read (.data bytes _ fits) =>
    some (.next x (.serviceWrite task (fill buffer bytes fits)) [.read c bytes])
  | some _, .read .eof => some (.next x (.serviceClose task) [])
  | some _, .read .error => some (.next x (.serviceClose task) [])
  | _, _ => none

/-- `write(sock, buffer, strlen(buffer))`; its result is not looked at. -/
def write (task : Task) (buffer : Buffer) (i : Input) (x : Sockets) :
    Option (Outcome Sockets Place Event) :=
  match x.conn task.sock, i with
  | none, .write _ => some .undefined
  | some c, .write r =>
    match strlen buffer.1 with
    | some n => some (.next x (.serviceRead task buffer) [.wrote c (buffer.1.take n) r])
    | none => some .undefined
  | _, _ => none

/-- `close(sock)`. -/
def close (task : Task) (i : Input) (x : Sockets) : Option (Outcome Sockets Place Event) :=
  match x.conn task.sock, i with
  | none, .step => some .undefined
  | some c, .step =>
    some (.next { x with conn := Function.update x.conn task.sock none } .served [.closed c])
  | _, _ => none

/-- `TcpServer::start` and `service`, as the code around the pool. -/
def server : ThreadPool.User Task Place Sockets Input Event where
  op
    | .start => .run .accept
    | .accept => .act accept
    | .link task => .pushTask task .accept
    | .service task => .act (enter task)
    | .serviceRead task buffer => .act (read task buffer)
    | .serviceWrite task buffer => .act (write task buffer)
    | .serviceClose task => .act (close task)
    | .served => .ret
  call := .service

/-- States of the server. -/
abbrev State (T : Type*) := ThreadPool.State T Task Place Sockets Event

/-- No descriptor open. -/
def Sockets.new : Sockets := ⟨fun _ => none, 0⟩

/-- The runs of a server with `num` workers. -/
def sys {T : Type*} [DecidableEq T] (num : ℕ) : System (State T) :=
  ThreadPool.sys server num (· = .start) .new

/-! ### What each call does -/

/-- The steps of the acceptor and of `service`, by the place they are made
at. -/
inductive Served (x : Sockets) : Place → Sockets → Place → List Event → Prop
  | missed : Served x .accept x .accept []
  | accepted {sock peer} (hnone : x.conn sock = none) : Served x .accept
      ⟨Function.update x.conn sock (some x.accepted), x.accepted + 1⟩ (.link ⟨sock, peer⟩)
      [.accepted x.accepted sock]
  | enter {task buffer} : Served x (.service task) x (.serviceRead task buffer) []
  | read {task buffer c bytes fits} (hc : x.conn task.sock = some c) :
      Served x (.serviceRead task buffer) x (.serviceWrite task (fill buffer bytes fits))
        [.read c bytes]
  | hungUp {task buffer c} (hc : x.conn task.sock = some c) :
      Served x (.serviceRead task buffer) x (.serviceClose task) []
  | write {task buffer c n r} (hc : x.conn task.sock = some c) (hn : strlen buffer.1 = some n) :
      Served x (.serviceWrite task buffer) x (.serviceRead task buffer)
        [.wrote c (buffer.1.take n) r]
  | close {task c} (hc : x.conn task.sock = some c) : Served x (.serviceClose task)
      { x with conn := Function.update x.conn task.sock none } .served [.closed c]

/-- **Every access of the server is one of these.**  What `accept`, `read`,
`write` and `close` may come to is in the rules; the invariants are checked
rule by rule. -/
theorem served {i : Input} {x x' : Sockets} {u u' : Place} {f} {vs : List Event}
    (hu : server.op u = .act f) (hx : f i x = some (.next x' u' vs)) : Served x u x' u' vs := by
  cases u with
  | accept =>
    cases hu
    unfold accept at hx
    split at hx
    · obtain ⟨rfl, rfl, rfl⟩ := Outcome.next.inj (Option.some.inj hx)
      exact .missed
    · split at hx
      · rename_i hnone
        obtain ⟨rfl, rfl, rfl⟩ := Outcome.next.inj (Option.some.inj hx)
        exact .accepted hnone
      · cases hx
    · cases hx
  | service task =>
    cases hu
    unfold enter at hx
    split at hx
    · obtain ⟨rfl, rfl, rfl⟩ := Outcome.next.inj (Option.some.inj hx)
      exact .enter
    · cases hx
  | serviceRead task buffer =>
    cases hu
    unfold read at hx
    split at hx
    · cases hx
    · rename_i hc
      obtain ⟨rfl, rfl, rfl⟩ := Outcome.next.inj (Option.some.inj hx)
      exact .read hc
    · rename_i hc
      obtain ⟨rfl, rfl, rfl⟩ := Outcome.next.inj (Option.some.inj hx)
      exact .hungUp hc
    · rename_i hc
      obtain ⟨rfl, rfl, rfl⟩ := Outcome.next.inj (Option.some.inj hx)
      exact .hungUp hc
    · cases hx
  | serviceWrite task buffer =>
    cases hu
    unfold write at hx
    split at hx
    · cases hx
    · rename_i hc
      split at hx
      · rename_i hn
        obtain ⟨rfl, rfl, rfl⟩ := Outcome.next.inj (Option.some.inj hx)
        exact .write hc hn
      · cases hx
    · cases hx
  | serviceClose task =>
    cases hu
    unfold close at hx
    split at hx
    · cases hx
    · rename_i hc
      obtain ⟨rfl, rfl, rfl⟩ := Outcome.next.inj (Option.some.inj hx)
      exact .close hc
    · cases hx
  | start | link task | served => cases hu

section calls

variable {u u' : Place} {task : Task}

/-- Only the acceptor pushes tasks, one for each connection accepted. -/
theorem op_pushTask (h : server.op u = .pushTask task u') : u = .link task ∧ u' = .accept := by
  cases u <;> cases h
  exact ⟨rfl, rfl⟩

/-- Only the acceptor runs the pool, once. -/
theorem op_run (h : server.op u = .run u') : u = .start ∧ u' = .accept := by
  cases u <;> cases h
  exact ⟨rfl, rfl⟩

/-- A task returns when it is served. -/
theorem op_ret (h : server.op u = .ret) : u = .served := by
  cases u <;> cases h
  rfl

end calls

section undefined

variable {task : Task} {buffer : Buffer} {i : Input} {x : Sockets}

/-- A `read` is undefined only on a descriptor that is not open. -/
theorem read_undefined (h : read task buffer i x = some .undefined) : x.conn task.sock = none := by
  unfold read at h
  split at h
  · assumption
  all_goals cases h

/-- A `write` is undefined on a descriptor that is not open, or where `strlen`
runs past the buffer. -/
theorem write_undefined (h : write task buffer i x = some .undefined) :
    x.conn task.sock = none ∨ strlen buffer.1 = none := by
  unfold write at h
  split at h
  · exact .inl (by assumption)
  · split at h
    · cases h
    · exact .inr (by assumption)
  · cases h

/-- A `close` is undefined only on a descriptor that is not open, for instance
one that was closed before. -/
theorem close_undefined (h : close task i x = some .undefined) : x.conn task.sock = none := by
  unfold close at h
  split at h
  · assumption
  all_goals cases h

/-- The terminator is in the buffer: at most `sizeof(buffer) - 1` bytes were
read, so there is room for it. -/
theorem zero_mem_fill (bytes : List UInt8) (fits : bytes.length ≤ serviceSize - 1) :
    0 ∈ (fill buffer bytes fits).1 := by
  have hlen : bytes.length < (blit bytes buffer.1).length := by
    have hs : serviceSize = 1024 := rfl
    rw [length_blit (by rw [buffer.2]; omega), buffer.2]
    omega
  exact List.mem_set hlen 0

end undefined

/-- **Nothing of what was in the buffer before is in its string.**  The buffer
is never cleared, and need not be. -/
theorem text_fill (buffer : Buffer) (bytes : List UInt8) (fits : bytes.length ≤ serviceSize - 1) :
    text (fill buffer bytes fits).1 = text bytes := by
  have hlt : bytes.length < buffer.1.length := by
    have hsize : serviceSize = 1024 := rfl
    rw [buffer.2]
    omega
  exact text_terminate hlt

end TcpServer
end OSNetWorkCode
