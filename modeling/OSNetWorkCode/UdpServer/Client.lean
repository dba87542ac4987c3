/-
# What a chat client makes of a broadcast

`0215/udp/udp_client.cc`, `udpRecv`.  Each round of the loop zeroes a buffer of
1024 bytes, receives into all of it and stores a terminator behind what it
received, so that a datagram of 1024 bytes or more is cut to 1024 and the
terminator goes to `buffer[1024]`, one byte past the array (`recvRound_long`).
A shorter one without zero bytes is printed as it is (`recvRound_short`).

The server receives one byte less than its buffer holds, 1023 bytes, and puts
the sender's text and `" # "` in front.  So the longest messages come to a
client as datagrams that are too long for it: the text of an endpoint has
between 9 and 21 bytes, and `displayed_iff` is the exact condition on both
lengths.
-/

import OSNetWorkCode.Lib.Block
import OSNetWorkCode.UdpServer.Relay

namespace OSNetWorkCode
namespace UdpServer

open CString Net

/-- `READ_SEND_MAX_SIZE` of the client. -/
def readSendMaxSize : ℕ := 1024

/-- `memset(buffer, 0, sizeof(buffer))`. -/
def zeroed : Block readSendMaxSize := ⟨[], List.replicate readSendMaxSize 0, List.length_replicate⟩

/-- The bytes of a datagram that `recvfrom(sock, buffer, sizeof(buffer), …)`
copies. -/
def copied (datagram : List UInt8) : List UInt8 := datagram.take readSendMaxSize

/-- One round of `udpRecv`: what it prints for a datagram, or for a failed
`recvfrom`; `none` where it stores outside the buffer. -/
def recvRound : Option (List UInt8) → Option (List UInt8)
  | none => some []
  | some datagram =>
    if (copied datagram).length > 0 then do
      let buffer ← zeroed.copy 0 (copied datagram)
      let buffer ← buffer.store (copied datagram).length 0
      let out ← buffer.string 0
      some (out ++ [10])
    else some []

/-- `udpRecv`: what it prints for whatever arrives. -/
def udpRecv : List (Option (List UInt8)) → Option (List UInt8)
  | [] => some []
  | r :: rs => do
    let line ← recvRound r
    let out ← udpRecv rs
    some (line ++ out)

/-- `recvfrom` copies no more than the buffer holds, and the rest of the
datagram is lost. -/
theorem length_copied (datagram : List UInt8) :
    (copied datagram).length = min readSendMaxSize datagram.length :=
  List.length_take

/-- **A datagram that leaves room for the terminator is printed as it is.**  It
has no zero byte, so that nothing of it is cut off. -/
theorem recvRound_short {datagram : List UInt8} (h0 : 0 ∉ datagram) (hne : datagram ≠ [])
    (hlen : datagram.length < readSendMaxSize) :
    recvRound (some datagram) = some (datagram ++ [10]) := by
  have hcopied : copied datagram = datagram := List.take_of_length_le hlen.le
  have hpos : datagram.length > 0 := List.length_pos_iff.2 hne
  obtain ⟨k, hk⟩ : ∃ k, readSendMaxSize - datagram.length = k + 1 :=
    ⟨readSendMaxSize - datagram.length - 1, by omega⟩
  have hroom : 0 + datagram.length ≤ readSendMaxSize := by omega
  obtain ⟨b, hb, -, hmem⟩ := zeroed.copy_eq hroom
  have hcut : b.mem = datagram ++ 0 :: List.replicate k 0 := by
    rw [hmem, zeroed, List.take_zero, List.nil_append, List.drop_replicate, Nat.zero_add, hk]
    rfl
  obtain ⟨b', hb', -, hmem'⟩ := Block.store_eq hcut rfl 0
  have hwhole : b'.mem = [] ++ (datagram ++ 0 :: List.replicate k 0) := hmem'
  have hstring : b'.string 0 = some datagram := Block.string_eq hwhole rfl h0
  simp only [recvRound, hcopied, if_pos hpos, hb, hb', hstring, Option.bind_eq_bind,
    Option.bind_some]

/-- **The terminator of a longer one is stored past the buffer.**  The buffer
is filled to its last byte then, since `recvfrom` was given all of it. -/
theorem recvRound_long {datagram : List UInt8} (hlen : readSendMaxSize ≤ datagram.length) :
    recvRound (some datagram) = none := by
  have hcopied : (copied datagram).length = readSendMaxSize := by
    rw [length_copied]
    omega
  have hpos : (copied datagram).length > 0 := by
    rw [hcopied]
    decide
  have hroom : 0 + (copied datagram).length ≤ readSendMaxSize := by omega
  obtain ⟨b, hb, -⟩ := zeroed.copy_eq hroom
  have hstore : b.store (copied datagram).length 0 = none := if_neg (by omega)
  simp only [recvRound, if_pos hpos, hb, hstore, Option.bind_eq_bind, Option.bind_some,
    Option.bind_none]

/-- **The loop prints one line for each datagram,** as long as they are short
enough. -/
theorem udpRecv_short {datagrams : List (List UInt8)}
    (h : ∀ d ∈ datagrams, 0 ∉ d ∧ d ≠ [] ∧ d.length < readSendMaxSize) :
    udpRecv (datagrams.map some) = some (datagrams.flatMap (· ++ [10])) := by
  induction datagrams with
  | nil => rfl
  | cons d ds ih =>
    obtain ⟨h0, hne, hlen⟩ := h d List.mem_cons_self
    rw [List.map_cons, udpRecv, recvRound_short h0 hne hlen,
      ih fun d' hd' => h d' (List.mem_cons_of_mem d hd')]
    rfl

/-- A client shows a message intact: the terminator goes to an index below the
size of the buffer, and exactly the message is printed, on a line of its
own. -/
def Displayed (datagram : List UInt8) : Prop :=
  (copied datagram).length < readSendMaxSize ∧ recvRound (some datagram) = some (datagram ++ [10])

/-- A datagram without zero bytes is shown intact if and only if it is shorter
than the buffer. -/
theorem displayed_iff_length {datagram : List UInt8} (h0 : 0 ∉ datagram) (hne : datagram ≠ []) :
    Displayed datagram ↔ datagram.length < readSendMaxSize := by
  constructor
  · rintro ⟨hindex, -⟩
    rw [length_copied] at hindex
    omega
  · intro hlen
    refine ⟨?_, recvRound_short h0 hne hlen⟩
    rw [length_copied]
    omega

/-! ### The broadcasts of the server -/

/-- What the server sends for a message. -/
def broadcastText (peer : SockaddrIn) (bytes : List UInt8) : List UInt8 :=
  keyText peer ++ separator ++ bytes

/-- A broadcast of a message without zero bytes has none: neither the sender's
text nor the separator brings one in. -/
theorem zero_notMem_broadcastText (peer : SockaddrIn) {bytes : List UInt8} (h0 : 0 ∉ bytes) :
    0 ∉ broadcastText peer bytes := by
  simp [broadcastText, separator, zero_notMem_keyText, h0]

/-- How long a broadcast is: the sender's text, three bytes of separator, and
the message. -/
theorem length_broadcastText (peer : SockaddrIn) (bytes : List UInt8) :
    (broadcastText peer bytes).length = (keyText peer).length + 3 + bytes.length := by
  simp only [broadcastText, separator, List.length_append, List.length_cons, List.length_nil]

section broadcast

variable {rs : List Recv} {s : Server} {peer : SockaddrIn} {bytes : List UInt8}

/-- A non-empty message is sent under its sender's text, to the sender at
least.  So there is a client that gets it. -/
theorem Known.sent_message (h : Known rs s) (v : Traversal)
    (fits : bytes.length ≤ bufferSize - 1) (hne : bytes ≠ []) (h0 : 0 ∉ bytes) :
    (∀ d ∈ s.sent v (.received peer bytes fits), d.content = broadcastText peer bytes) ∧
      ∃ d ∈ s.sent v (.received peer bytes fits), d.dest = peer := by
  have hspeaker : (Recv.received peer bytes fits).speaker? = some peer := if_neg hne
  have hperm := h.sent_of_speaker v hspeaker (r := .received peer bytes fits) h0
  have hrelayed : relayed rs (.received peer bytes fits) =
      (speakers (rs ++ [.received peer bytes fits])).map fun q =>
        ⟨q, broadcastText peer bytes⟩ := by
    simp [relayed, Recv.message?, hne, broadcastText]
  rw [hrelayed] at hperm
  have hself : peer ∈ speakers (rs ++ [.received peer bytes fits]) := by
    simp [speakers, hspeaker]
  constructor
  · intro d hd
    obtain ⟨q, -, rfl⟩ := List.mem_map.1 (hperm.mem_iff.1 hd)
    rfl
  · exact ⟨_, hperm.mem_iff.2 (List.mem_map.2 ⟨peer, hself, rfl⟩), rfl⟩

end broadcast

/-- **A client shows a chat message intact if and only if sender, separator and
message leave room for the terminator.**  Whatever the server has received
before and from whom: the datagrams that it sends to its users for a message
without zero bytes hold the sender's text, `" # "` and the message, and are
shown intact by all of them just if these are less than 1024 bytes together. -/
theorem displayed_iff (v : Traversal) (key : List UInt8) (rs : List Recv) (peer : SockaddrIn)
    (bytes : List UInt8) (fits : bytes.length ≤ bufferSize - 1) (hne : bytes ≠ [])
    (h0 : 0 ∉ bytes) :
    (∀ d ∈ ((Server.new key).after rs).sent v (.received peer bytes fits),
      d.content = keyText peer ++ separator ++ bytes ∧ Displayed d.content) ↔
      (keyText peer).length + 3 + bytes.length ≤ 1023 := by
  obtain ⟨hcontent, d, hd, -⟩ :=
    (known_after key rs).sent_message v fits hne h0
  have hshown : Displayed (broadcastText peer bytes) ↔
      (keyText peer).length + 3 + bytes.length ≤ 1023 := by
    rw [displayed_iff_length (zero_notMem_broadcastText peer h0) (by simp [broadcastText, hne]),
      length_broadcastText, readSendMaxSize]
    omega
  constructor
  · intro h
    rw [← hshown, ← hcontent d hd]
    exact (h d hd).2
  · intro hlen d' hd'
    rw [hcontent d' hd']
    exact ⟨rfl, hshown.2 hlen⟩

/-- `"hi"` from `127.0.0.1`, port `8080`, is nineteen bytes. -/
theorem displayed_iff_hi :
    ∃ d ∈ ((Server.new []).after []).sent inOrder (.received localPeer [104, 105] (by decide)),
      d.dest = localPeer ∧ d.content = keyText localPeer ++ separator ++ [104, 105] ∧
        Displayed d.content := by
  have hne : ([104, 105] : List UInt8) ≠ [] := List.cons_ne_nil _ _
  have hfits : ([104, 105] : List UInt8).length ≤ bufferSize - 1 := by decide
  obtain ⟨-, d, hd, hdest⟩ :=
    (known_after [] []).sent_message inOrder hfits hne (by decide)
  exact ⟨d, hd, hdest, (displayed_iff inOrder [] [] localPeer [104, 105] hfits hne (by decide)).2
    (by decide) d hd⟩

/-- **A message of 1007 bytes is too long** when it comes from `127.0.0.1`,
port `8080`: the server takes it and sends it on, and the client stores its
terminator past the buffer. -/
theorem long_message_overflows :
    ∃ fits, ∃ d ∈ ((Server.new []).after []).sent inOrder
      (.received localPeer (List.replicate 1007 97) fits),
      d.content = keyText localPeer ++ separator ++ List.replicate 1007 97 ∧
        recvRound (some d.content) = none ∧ ¬ Displayed d.content := by
  have hne : List.replicate 1007 (97 : UInt8) ≠ [] := List.cons_ne_nil _ _
  have h0 : (0 : UInt8) ∉ List.replicate 1007 97 := fun h =>
    absurd (List.eq_of_mem_replicate h) (by decide)
  have hfits : (List.replicate 1007 (97 : UInt8)).length ≤ bufferSize - 1 := by
    rw [List.length_replicate]
    decide
  have hkey : (keyText localPeer).length = 14 := by decide
  obtain ⟨hcontent, d, hd, -⟩ :=
    (known_after [] []).sent_message inOrder hfits hne h0
  have hlen : d.content.length = 1024 := by
    rw [hcontent d hd, length_broadcastText, hkey, List.length_replicate]
  have hlong : recvRound (some d.content) = none := by
    refine recvRound_long ?_
    rw [hlen]
    exact Nat.le_refl _
  refine ⟨hfits, d, hd, hcontent d hd, hlong, fun hshown => ?_⟩
  rw [hshown.2] at hlong
  cases hlong

/-! ### A whole conversation -/

/-- **A client prints all it is to hear,** where the server is never quiet
between messages and none is too long for the client. -/
theorem udpRecv_traffic (v : Traversal) (key : List UInt8) {rs : List Recv} (peer : SockaddrIn)
    (hnul : ∀ r ∈ rs, r.NulFree) (hquiet : QuietOnlyBefore rs)
    (hshort : ∀ r ∈ rs, ∀ msg, r.message? = some msg → msg.length < readSendMaxSize) :
    udpRecv ((traffic ((Server.new key).start v rs) peer).map some) =
      some ((heard rs peer).flatMap (· ++ [10])) := by
  rw [(relays_of_quiet v key hnul hquiet).2 peer]
  refine udpRecv_short fun msg hmsg => ?_
  obtain ⟨r, hr, hsaid⟩ := List.mem_filterMap.1 hmsg
  have hmem : r ∈ rs := (List.dropWhile_suffix _).subset hr
  have hlen := hshort r hmem msg hsaid
  cases hspeaker : r.speaker? with
  | none =>
    rw [message_of_silent hspeaker] at hsaid
    cases hsaid
  | some q =>
    obtain ⟨bytes, fits, rfl, hne, htext⟩ := message_of_speaker hspeaker
    rw [htext] at hsaid
    obtain rfl := Option.some.inj hsaid
    exact ⟨zero_notMem_broadcastText q (hnul _ hmem), by simp [hne], hlen⟩

end UdpServer
end OSNetWorkCode
