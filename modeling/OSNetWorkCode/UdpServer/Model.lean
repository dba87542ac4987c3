/-
# The UDP chat server

`0215/udp/udp_server.hpp`, `UdpServer::start`.  Each round of the loop receives
a datagram into a zeroed buffer of 1024 bytes.  A non-empty one has its
sender's text printed into `key` and the sender entered into `_users` under
that text, if it is not there.  After that, and outside the test for a
non-empty datagram, the loop over `_users` sends `key`, `" # "` and the buffer
to every user.

`key` is a local array of the loop body that is set only by a non-empty
datagram; in another round it still holds what it held before.  `_users` is
kept as the list of its entries in the order of insertion; the order in which a
`std::unordered_map` is traversed depends on it in a way left open
(`Traversal`).
-/

import Mathlib.Data.List.Basic
import OSNetWorkCode.Lib.CString
import OSNetWorkCode.Net.Sockaddr

namespace OSNetWorkCode
namespace UdpServer

open CString Net

/-- `SIZE`. -/
def bufferSize : ℕ := 1024

/-- What `recvfrom` comes to: `-1`, or a sender and the bytes copied into the
buffer, `0` or more, at most `sizeof(buffer) - 1`. -/
inductive Recv
  | failed
  | received (peer : SockaddrIn) (bytes : List UInt8) (fits : bytes.length ≤ bufferSize - 1)

/-- An entry of `_users`. -/
abbrev User := List UInt8 × SockaddrIn

/-- `_users`, and the array `key`. -/
structure Server where
  users : List User
  key : List UInt8

/-- A datagram handed to `sendto`. -/
structure Datagram where
  dest : SockaddrIn
  content : List UInt8
  deriving DecidableEq

/-- The order in which a hash table is traversed. -/
structure Traversal where
  visit : List User → List User
  perm : ∀ users, (visit users).Perm users

/-- `memset(buffer, 0, sizeof(buffer))` and `recvfrom`. -/
def Recv.buffer : Recv → List UInt8
  | .failed => List.replicate bufferSize 0
  | .received _ bytes _ => blit bytes (List.replicate bufferSize 0)

/-- The branch `if (s > 0)`. -/
def Server.receive (s : Server) : Recv → Server
  | .failed => s
  | .received peer bytes _ =>
    if bytes.length > 0 then
      let key := snprintf (List.replicate 64 0) (keyText peer)
      match s.users.find? fun user => user.1 = text key with
      | none => { users := s.users ++ [(text key, peer)], key := key }
      | some _ => { s with key := key }
    else s

/-- `" # "`. -/
def separator : List UInt8 := [32, 35, 32]

/-- The loop `for (auto &iter : _users)`. -/
def Server.broadcast (v : Traversal) (s : Server) (buffer : List UInt8) : List Datagram :=
  (v.visit s.users).map fun user => ⟨user.2, text s.key ++ separator ++ text buffer⟩

/-- The server after some rounds. -/
def Server.after (s : Server) (rs : List Recv) : Server := rs.foldl Server.receive s

/-- What the next round sends. -/
def Server.sent (v : Traversal) (s : Server) (r : Recv) : List Datagram :=
  (s.receive r).broadcast v r.buffer

/-- What `start` sends, round by round. -/
def Server.start (v : Traversal) : Server → List Recv → List (List Datagram)
  | _, [] => []
  | s, r :: rs => s.sent v r :: Server.start v (s.receive r) rs

/-- A server just constructed: nobody is registered; `key` holds anything. -/
def Server.new (key : List UInt8) : Server := ⟨[], key⟩

end UdpServer
end OSNetWorkCode
