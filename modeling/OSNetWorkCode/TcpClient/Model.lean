/-
# The TCP echo client and the service loop over one connection

The loop of `0215/tcp/tcp_client.cc` on one side, `service` of
`0215/tcp/tcp_server.hpp` on the other, and the two byte streams between them.
The client takes a line, sends all of it, waits in one `recv` for some answer
and takes the next line; the server reads a piece and writes its string back.
There is no framing: `send`, `recv`, `read` and `write` move any number of
bytes that are there, at most as many as their buffer takes, and `send` and
`write` go on until everything has been moved.

No call fails and the connection stays open.  What the two programs print is
left out.
-/

import OSNetWorkCode.Lib.Transition
import OSNetWorkCode.TcpServer.Model

namespace OSNetWorkCode
namespace TcpClient

open CString TcpServer

/-- `RECV_SIZE`. -/
def recvSize : ℕ := 1024

/-- Where the client stands. -/
inductive Client
  | getline
  /-- In `send`, with what is still to be sent. -/
  | send (rest : List UInt8)
  | recv

/-- Where the server stands, with its buffer. -/
inductive Service
  | read (buffer : Buffer)
  /-- In `write`, with what is still to be written. -/
  | write (buffer : Buffer) (rest : List UInt8)

/-- The lines not yet typed, the two programs, and the bytes on the way to the
server and back. -/
structure State where
  lines : List (List UInt8)
  client : Client
  up : List UInt8
  service : Service
  down : List UInt8

/-- What happens next, and to how many bytes. -/
inductive Action
  | getline
  | send (n : ℕ)
  | sent
  | recv (n : ℕ)
  | read (n : ℕ)
  | write (n : ℕ)
  | written
  deriving DecidableEq

/-- `std::getline(std::cin, line)`; what is sent is the whole line, zero bytes
included. -/
def getline (s : State) : Option State :=
  match s.client, s.lines with
  | .getline, line :: lines => some { s with lines := lines, client := .send line }
  | _, _ => none

/-- `send(sock, line.c_str(), line.size(), 0)` moves `n` bytes. -/
def send (n : ℕ) (s : State) : Option State :=
  match s.client with
  | .send rest =>
    if 0 < n ∧ n ≤ rest.length then
      some { s with client := .send (rest.drop n), up := s.up ++ rest.take n }
    else none
  | _ => none

/-- `send` returns. -/
def sent (s : State) : Option State :=
  match s.client with
  | .send [] => some { s with client := .recv }
  | _ => none

/-- `recv(sock, buffer, sizeof(buffer) - 1, 0)` takes `n` bytes; it waits while
there are none. -/
def recv (n : ℕ) (s : State) : Option State :=
  match s.client with
  | .recv =>
    if 0 < n ∧ n ≤ s.down.length ∧ n ≤ recvSize - 1 then
      some { s with client := .getline, down := s.down.drop n }
    else none
  | _ => none

/-- `read(sock, buffer, sizeof(buffer) - 1)` takes `n` bytes, and `write` is
called with the string that is in the buffer then. -/
def read (n : ℕ) (s : State) : Option State :=
  match s.service with
  | .read buffer =>
    if h : 0 < n ∧ n ≤ s.up.length ∧ (s.up.take n).length ≤ serviceSize - 1 then
      let filled := fill buffer (s.up.take n) h.2.2
      match strlen filled.1 with
      | some k => some { s with up := s.up.drop n, service := .write filled (filled.1.take k) }
      | none => none
    else none
  | _ => none

/-- `write(sock, buffer, strlen(buffer))` moves `n` bytes. -/
def write (n : ℕ) (s : State) : Option State :=
  match s.service with
  | .write buffer rest =>
    if 0 < n ∧ n ≤ rest.length then
      some { s with service := .write buffer (rest.drop n), down := s.down ++ rest.take n }
    else none
  | _ => none

/-- `write` returns. -/
def written (s : State) : Option State :=
  match s.service with
  | .write buffer [] => some { s with service := .read buffer }
  | _ => none

/-- One step of the client, the server or the kernel. -/
def State.step (s : State) : Action → Option State
  | .getline => getline s
  | .send n => send n s
  | .sent => sent s
  | .recv n => recv n s
  | .read n => read n s
  | .write n => write n s
  | .written => written s

/-- The connection is made and nothing was sent; `lines` will be typed, and the
server's buffer holds whatever the stack held. -/
def Init (lines : List (List UInt8)) (s : State) : Prop :=
  ∃ buffer, s = ⟨lines, .getline, [], .read buffer, []⟩

/-- The runs in which every step is one that `ok` admits. -/
def sys (ok : State → Action → Bool) (lines : List (List UInt8)) : System State :=
  System.along (Init lines) State.step ok

/-- All runs. -/
abbrev runs (lines : List (List UInt8)) : System State := sys System.anything lines

/-- The client waits in `recv` and the server in `read`, and nothing is on the
way. -/
def Standstill (s : State) : Prop :=
  s.client = .recv ∧ (∃ buffer, s.service = .read buffer) ∧ s.up = [] ∧ s.down = []

/-- What the client has still to send of the line it is sending. -/
def Client.unsent : Client → List UInt8
  | .send rest => rest
  | _ => []

/-- What the server has still to write of the string it is writing. -/
def Service.unwritten : Service → List UInt8
  | .write _ rest => rest
  | _ => []

/-- The bytes between the line being sent and the `recv` that waits for an
echo. -/
def State.underway (s : State) : ℕ :=
  s.client.unsent.length + s.up.length + s.service.unwritten.length + s.down.length

/-! ### What each step does -/

/-- The steps, listed. -/
inductive Steps (s : State) : Action → State → Prop
  | getline {line lines} (hc : s.client = .getline) (hl : s.lines = line :: lines) :
      Steps s .getline { s with lines := lines, client := .send line }
  | send {n rest} (hc : s.client = .send rest) (hpos : 0 < n) (hn : n ≤ rest.length) :
      Steps s (.send n) { s with client := .send (rest.drop n), up := s.up ++ rest.take n }
  | sent (hc : s.client = .send []) : Steps s .sent { s with client := .recv }
  | recv {n} (hc : s.client = .recv) (hpos : 0 < n) (hn : n ≤ s.down.length)
      (hbuf : n ≤ recvSize - 1) :
      Steps s (.recv n) { s with client := .getline, down := s.down.drop n }
  | read {n buffer buffer'} (hs : s.service = .read buffer) (hpos : 0 < n) (hn : n ≤ s.up.length)
      (hbuf : n ≤ serviceSize - 1) :
      Steps s (.read n) { s with
        up := s.up.drop n, service := .write buffer' (text (s.up.take n)) }
  | write {n buffer rest} (hs : s.service = .write buffer rest) (hpos : 0 < n)
      (hn : n ≤ rest.length) :
      Steps s (.write n) { s with
        service := .write buffer (rest.drop n), down := s.down ++ rest.take n }
  | written {buffer} (hs : s.service = .write buffer []) :
      Steps s .written { s with service := .read buffer }

/-- **What `step` makes is one of the steps.**  The conditions under which an
action is possible are in the rules, so that later proofs do not unfold
`step`. -/
theorem steps {s s' : State} {a : Action} (h : s.step a = some s') : Steps s a s' := by
  cases a with
  | getline =>
    simp only [State.step, getline] at h
    split at h
    · rename_i line lines hc hl
      obtain rfl := Option.some.inj h
      exact .getline hc hl
    · cases h
  | send n =>
    simp only [State.step, send] at h
    split at h
    · rename_i rest hc
      split_ifs at h with hn
      obtain rfl := Option.some.inj h
      exact .send hc hn.1 hn.2
    · cases h
  | sent =>
    simp only [State.step, sent] at h
    split at h
    · rename_i hc
      obtain rfl := Option.some.inj h
      exact .sent hc
    · cases h
  | recv n =>
    simp only [State.step, recv] at h
    split at h
    · rename_i hc
      split_ifs at h with hn
      obtain rfl := Option.some.inj h
      exact .recv hc hn.1 hn.2.1 hn.2.2
    · cases h
  | read n =>
    simp only [State.step, read] at h
    split at h
    · rename_i buffer hs
      split_ifs at h with hn
      split at h
      · rename_i k hk
        obtain rfl := Option.some.inj h
        rw [take_strlen hk, text_fill]
        refine .read hs hn.1 hn.2.1 ?_
        have hlength := hn.2.2
        rw [List.length_take] at hlength
        omega
      · cases h
    · cases h
  | write n =>
    simp only [State.step, write] at h
    split at h
    · rename_i buffer rest hs
      split_ifs at h with hn
      obtain rfl := Option.some.inj h
      exact .write hs hn.1 hn.2
    · cases h
  | written =>
    simp only [State.step, written] at h
    split at h
    · rename_i buffer hs
      obtain rfl := Option.some.inj h
      exact .written hs
    · cases h

section made

variable {s : State} {n : ℕ} {buffer : Buffer} {rest : List UInt8}

/-- The next line is taken while the client is at `getline`. -/
theorem step_getline {line lines} (hc : s.client = .getline) (hl : s.lines = line :: lines) :
    s.step .getline = some { s with lines := lines, client := .send line } := by
  simp only [State.step, getline, hc, hl]

/-- `send` moves any number of bytes of what is left, at least one. -/
theorem step_send (hc : s.client = .send rest) (hpos : 0 < n) (hn : n ≤ rest.length) :
    s.step (.send n) =
      some { s with client := .send (rest.drop n), up := s.up ++ rest.take n } := by
  simp only [State.step, send, hc]
  rw [if_pos ⟨hpos, hn⟩]

/-- `send` returns when everything has been moved.  For an empty line that is
at once. -/
theorem step_sent (hc : s.client = .send []) :
    s.step .sent = some { s with client := .recv } := by
  simp only [State.step, sent, hc]

/-- `recv` takes any number of bytes that are there and fit into the buffer,
and the client takes that for the echo. -/
theorem step_recv (hc : s.client = .recv) (hpos : 0 < n) (hn : n ≤ s.down.length)
    (hbuf : n ≤ recvSize - 1) :
    s.step (.recv n) = some { s with client := .getline, down := s.down.drop n } := by
  simp only [State.step, recv, hc]
  rw [if_pos ⟨hpos, hn, hbuf⟩]

/-- `write` moves any number of bytes of what is left, at least one. -/
theorem step_write (hs : s.service = .write buffer rest) (hpos : 0 < n) (hn : n ≤ rest.length) :
    s.step (.write n) = some { s with
      service := .write buffer (rest.drop n), down := s.down ++ rest.take n } := by
  simp only [State.step, write, hs]
  rw [if_pos ⟨hpos, hn⟩]

/-- `write` returns when everything has been moved.  For a piece that begins
with a zero byte that is at once. -/
theorem step_written (hs : s.service = .write buffer []) :
    s.step .written = some { s with service := .read buffer } := by
  simp only [State.step, written, hs]

/-- **A read is made of any piece that is there and fits into the buffer.**
What is to be written then is the string of the piece, not the piece. -/
theorem step_read (hs : s.service = .read buffer) (hpos : 0 < n) (hn : n ≤ s.up.length)
    (hbuf : n ≤ serviceSize - 1) :
    ∃ buffer', s.step (.read n) = some { s with
      up := s.up.drop n, service := .write buffer' (text (s.up.take n)) } := by
  have hfits : (s.up.take n).length ≤ serviceSize - 1 := by
    rw [List.length_take]
    omega
  have hzero : 0 ∈ (fill buffer (s.up.take n) hfits).1 := zero_mem_fill _ hfits
  have hlen : strlen (fill buffer (s.up.take n) hfits).1 =
      some (text (fill buffer (s.up.take n) hfits).1).length := by
    rw [strlen, if_pos hzero]
  have htake := (take_strlen hlen).trans (text_fill buffer (s.up.take n) hfits)
  refine ⟨fill buffer (s.up.take n) hfits, ?_⟩
  simp only [State.step, read, hs]
  rw [dif_pos ⟨hpos, hn, hfits⟩]
  simp only [hlen, htake]

end made

end TcpClient
end OSNetWorkCode
