/-
# The chat over a network

The server of `0215/udp/udp_server.hpp` and any number of clients of
`udp_client.cc`, with the network between them.  A client is named by the
endpoint that the system binds its socket to; its `udpSend` hands each line to
`sendto` until a line is `quit`, its `udpRecv` prints what arrives.  The
network may lose, repeat and reorder: whatever was sent may be delivered at any
later time, any number of times or never.  A `recvfrom` of the server may fail
at any time; one of a client that fails prints nothing, and is left out.

What a client shows was said (`authentic`): its screen consists of lines, each
with the name of an endpoint that has spoken and either a message of just that
endpoint, as far as the server takes it, or no text; and it can be read in no
other way, so nobody can speak under another's name.  A line without text is
all that the server's stale broadcasts come to (`sent_of_silent`).
-/

import Mathlib.Logic.Function.Basic
import OSNetWorkCode.Lib.Transition
import OSNetWorkCode.UdpServer.Client

namespace OSNetWorkCode
namespace UdpServer

open CString Net Function

/-- `"quit"`. -/
def quit : List UInt8 := [113, 117, 105, 116]

/-- One client. -/
structure Client where
  /-- `udpSend` is in its loop. -/
  sending : Bool
  /-- The lines that were handed to `sendto`. -/
  said : List (List UInt8)
  /-- What `udpRecv` has printed; `none` once it has stored outside its buffer. -/
  screen : Option (List UInt8)

/-- A round of `udpSend` that `getline` returns `message` in: the client, and
what is sent. -/
def Client.type (c : Client) (message : List UInt8) : Option (Client × Option (List UInt8)) :=
  if c.sending = true then
    if message = quit then some ({ c with sending := false }, none)
    else some ({ c with said := c.said ++ [message] }, some message)
  else none

/-- A round of `udpRecv` that a datagram arrives in. -/
def Client.hear (c : Client) (datagram : List UInt8) : Option Client :=
  c.screen.map fun screen =>
    { c with screen := (recvRound (some datagram)).map fun out => screen ++ out }

/-- The server, the clients, and what was ever sent to the server and by the
server. -/
structure Chat where
  server : Server
  clients : SockaddrIn → Client
  up : List (SockaddrIn × List UInt8)
  down : List Datagram

/-- What may happen next, at a client, at the server or in the network. -/
inductive Action
  /-- A line is typed at a client. -/
  | type (peer : SockaddrIn) (message : List UInt8)
  /-- A datagram reaches the server. -/
  | receive (peer : SockaddrIn) (message : List UInt8)
  /-- `recvfrom` of the server returns `-1`. -/
  | fail
  /-- A datagram reaches a client. -/
  | hear (d : Datagram)

/-- What `recvfrom` of the server copies of a datagram. -/
def taken (message : List UInt8) : List UInt8 := message.take (bufferSize - 1)

/-- What the server takes of a datagram leaves room for a terminator. -/
theorem length_taken (message : List UInt8) : (taken message).length ≤ bufferSize - 1 :=
  List.length_take_le _ _

namespace Chat

/-- A round of the server. -/
def round (v : Traversal) (s : Chat) (r : Recv) : Chat :=
  { s with server := s.server.receive r, down := s.down ++ s.server.sent v r }

/-- One step of somebody. -/
def step (v : Traversal) (s : Chat) : Action → Option Chat
  | .type peer message =>
    if (10 : UInt8) ∈ message then none
    else ((s.clients peer).type message).map fun (c, sent) =>
      { s with
        clients := update s.clients peer c
        up := s.up ++ (sent.map fun bytes => (peer, bytes)).toList }
  | .receive peer message =>
    if (peer, message) ∈ s.up then
      some (s.round v (.received peer (taken message) (length_taken message)))
    else none
  | .fail => some (s.round v .failed)
  | .hear d =>
    if d ∈ s.down then
      ((s.clients d.dest).hear d.content).map fun c =>
        { s with clients := update s.clients d.dest c }
    else none

/-- Nobody has said anything; `key` holds anything. -/
def new (key : List UInt8) : Chat := ⟨.new key, fun _ => ⟨true, [], some []⟩, [], []⟩

end Chat

/-- All runs of the chat. -/
def chats (v : Traversal) (key : List UInt8) : System Chat :=
  .along (fun s => s = .new key) (Chat.step v) System.anything

/-! ### What was said -/

namespace Chat

/-- Something that is not empty was typed at this client. -/
def Spoke (s : Chat) (q : SockaddrIn) : Prop := ∃ message ∈ (s.clients q).said, message ≠ []

/-- `text` may stand behind the name of this client: what the server makes of a
message that was typed there, or nothing. -/
def Says (s : Chat) (q : SockaddrIn) (t : List UInt8) : Prop :=
  s.Spoke q ∧ (t = [] ∨ ∃ message ∈ (s.clients q).said, t = text (taken message))

/-- Nothing that was said is forgotten. -/
def Later (s s' : Chat) : Prop := ∀ q, (s.clients q).said ⊆ (s'.clients q).said

variable {s s' : Chat} {q : SockaddrIn} {t : List UInt8}

/-- Who has spoken has spoken from then on. -/
theorem Spoke.later (h : s.Spoke q) (hlater : s.Later s') : s'.Spoke q := by
  obtain ⟨message, hmem, hne⟩ := h
  exact ⟨message, hlater q hmem, hne⟩

/-- What may be said under a name may be said from then on. -/
theorem Says.later (h : s.Says q t) (hlater : s.Later s') : s'.Says q t := by
  refine ⟨h.1.later hlater, h.2.imp_right ?_⟩
  rintro ⟨message, hmem, htext⟩
  exact ⟨message, hlater q hmem, htext⟩

/-- A client that goes on and says no less. -/
theorem later_update {peer : SockaddrIn} {c : Client} (hc : (s.clients peer).said ⊆ c.said)
    (up : List (SockaddrIn × List UInt8)) :
    s.Later { s with clients := update s.clients peer c, up := up } := by
  intro q
  by_cases hq : q = peer
  · subst hq
    simpa only [update_self] using hc
  · simp only [update_of_ne hq]
    exact List.Subset.refl _

end Chat

/-! ### What is shown -/

/-- Lines as `udpRecv` prints them. -/
def printed (lines : List (SockaddrIn × List UInt8)) : List UInt8 :=
  lines.flatMap fun l => broadcastText l.1 l.2 ++ [10]

/-- **A broadcast tells who said what.**  The separator begins with a blank,
which is in no endpoint's text. -/
theorem broadcastText_inj {q q' : SockaddrIn} {t t' : List UInt8}
    (h : broadcastText q t = broadcastText q' t') : (q, t) = (q', t') := by
  have hspace : ∀ q, (32 : UInt8) ∉ keyText q :=
    notMem_keyText (by decide) (by decide) (by decide)
  have hcut : keyText q ++ 32 :: (35 :: 32 :: t) = keyText q' ++ 32 :: (35 :: 32 :: t') := by
    simpa [broadcastText, separator] using h
  obtain ⟨hkey, hrest⟩ := Decimal.append_cons_inj (hspace q) (hspace q') hcut
  simp only [List.cons.injEq, true_and] at hrest
  rw [keyText_injective hkey, hrest]

/-- A broadcast of a text without newline is one line, and no message that was
typed as a line has a newline in it. -/
theorem newline_notMem_broadcastText {t : List UInt8} (ht : (10 : UInt8) ∉ t) (q : SockaddrIn) :
    10 ∉ broadcastText q t := by
  have hkey : (10 : UInt8) ∉ keyText q := notMem_keyText (by decide) (by decide) (by decide) q
  simp [broadcastText, separator, hkey, ht]

/-- **A screen can be read in one way only:** it is cut into lines at the
newlines, and each line tells its speaker. -/
theorem printed_inj {lines lines' : List (SockaddrIn × List UInt8)}
    (hlines : ∀ l ∈ lines, (10 : UInt8) ∉ l.2) (hlines' : ∀ l ∈ lines', (10 : UInt8) ∉ l.2)
    (h : printed lines = printed lines') : lines = lines' := by
  induction lines generalizing lines' with
  | nil =>
    cases lines' with
    | nil => rfl
    | cons l lines' => simp [printed] at h
  | cons l lines ih =>
    cases lines' with
    | nil => simp [printed] at h
    | cons l' lines' =>
      have hl := newline_notMem_broadcastText (hlines l List.mem_cons_self) l.1
      have hl' := newline_notMem_broadcastText (hlines' l' List.mem_cons_self) l'.1
      have hcut : broadcastText l.1 l.2 ++ 10 :: printed lines =
          broadcastText l'.1 l'.2 ++ 10 :: printed lines' := by
        simpa [printed] using h
      obtain ⟨hfirst, hrest⟩ := Decimal.append_cons_inj hl hl' hcut
      rw [show l = l' from broadcastText_inj hfirst,
        ih (fun l hl => hlines l (List.mem_cons_of_mem _ hl))
          (fun l hl => hlines' l (List.mem_cons_of_mem _ hl)) hrest]

/-! ### Nobody makes anything up -/

/-- Whatever the network, the server and the screens hold goes back to what was
typed. -/
structure Honest (s : Chat) : Prop where
  plain : ∀ q, ∀ message ∈ (s.clients q).said, (10 : UInt8) ∉ message
  up : ∀ p ∈ s.up, p.2 ∈ (s.clients p.1).said
  users : ∀ user ∈ s.server.users, s.Spoke user.2
  key : s.server.users = [] ∨ ∃ q, text s.server.key = keyText q ∧ s.Spoke q
  down : ∀ d ∈ s.down, s.Spoke d.dest ∧ ∃ q t, s.Says q t ∧ d.content = broadcastText q t
  screen : ∀ peer screen, (s.clients peer).screen = some screen → ∃ lines, screen = printed lines ∧
    (lines ≠ [] → s.Spoke peer) ∧ ∀ l ∈ lines, s.Says l.1 l.2
  overflow : ∀ peer, (s.clients peer).screen = none →
    ∃ q t, s.Says q t ∧ readSendMaxSize ≤ (broadcastText q t).length

variable {v : Traversal} {s s' : Chat}

/-- At the beginning nothing was said, sent or shown. -/
theorem honest_new (key : List UInt8) : Honest (.new key) where
  plain _ _ h := by cases h
  up _ h := by cases h
  users _ h := by cases h
  key := .inl rfl
  down _ h := by cases h
  screen peer screen h := ⟨[], (Option.some.inj h).symm, fun h => absurd rfl h, nofun⟩
  overflow peer h := by cases h

/-- What the buffer holds reads back as the string of what was received. -/
theorem text_received (peer : SockaddrIn) (bytes : List UInt8) (fits) :
    text (Recv.received peer bytes fits).buffer = text bytes := by
  simp only [Recv.buffer, blit, List.drop_replicate]
  exact text_append_zeros bytes _

/-- Where nobody speaks the buffer holds no text: it was zeroed, and `recvfrom`
has stored nothing. -/
theorem text_silent {r : Recv} (h : r.speaker? = none) : text r.buffer = [] := by
  cases r with
  | failed =>
    have htext := text_append_zeros [] bufferSize
    rwa [List.nil_append] at htext
  | received peer bytes fits =>
    have hnil : bytes = [] := by simpa [Recv.speaker?] using h
    rw [text_received, hnil]
    rfl

/-- **A round of the server** sends nothing that was not said, and to nobody
who has not spoken.  In a quiet round it is a name without a text. -/
theorem Honest.round (h : Honest s) {r : Recv}
    (hr : ∀ q, r.speaker? = some q → s.Says q (text r.buffer)) : Honest (s.round v r) := by
  have husers : ∀ user ∈ (s.server.receive r).users, s.Spoke user.2 := by
    cases hspeaker : r.speaker? with
    | none =>
      rw [receive_of_silent s.server hspeaker]
      exact h.users
    | some q =>
      rw [(receive_of_speaker s.server hspeaker).2]
      split_ifs
      · exact h.users
      · intro user huser
        rcases List.mem_append.1 huser with hold | hnew
        · exact h.users user hold
        · obtain rfl := List.mem_singleton.1 hnew
          exact (hr q hspeaker).1
  have hkey : (s.server.receive r).users = [] ∨
      ∃ q, text (s.server.receive r).key = keyText q ∧ s.Says q (text r.buffer) := by
    cases hspeaker : r.speaker? with
    | none =>
      rw [receive_of_silent s.server hspeaker, text_silent hspeaker]
      exact h.key.imp_right fun ⟨q, hq, hspoke⟩ => ⟨q, hq, hspoke, .inl rfl⟩
    | some q => exact .inr ⟨q, (receive_of_speaker s.server hspeaker).1, hr q hspeaker⟩
  refine ⟨h.plain, h.up, husers, hkey.imp_right fun ⟨q, hq, htold⟩ => ⟨q, hq, htold.1⟩, ?_,
    h.screen, h.overflow⟩
  intro d hd
  rcases List.mem_append.1 hd with hold | hnew
  · exact h.down d hold
  · obtain ⟨user, huser, rfl⟩ := List.mem_map.1 hnew
    have hmem := (v.perm _).mem_iff.1 huser
    refine ⟨husers user hmem, ?_⟩
    rcases hkey with hnil | ⟨q, hq, htold⟩
    · rw [hnil] at hmem
      cases hmem
    · exact ⟨q, _, htold, by rw [hq]; rfl⟩

/-- **A step of one client** keeps all the rest, for nothing that was said is
forgotten.  What has to be shown is about its own screen and what it sends. -/
theorem Honest.client (h : Honest s) {peer : SockaddrIn} {c : Client}
    (up : List (SockaddrIn × List UInt8)) (hsaid : (s.clients peer).said ⊆ c.said)
    (hplain : ∀ message ∈ c.said, (10 : UInt8) ∉ message)
    (hup : ∀ p ∈ up, p.2 ∈ (update s.clients peer c p.1).said)
    (hscreen : ∀ screen, c.screen = some screen → ∃ lines, screen = printed lines ∧
      (lines ≠ [] → s.Spoke peer) ∧ ∀ l ∈ lines, s.Says l.1 l.2)
    (hoverflow : c.screen = none →
      ∃ q t, s.Says q t ∧ readSendMaxSize ≤ (broadcastText q t).length) :
    Honest { s with clients := update s.clients peer c, up := up } := by
  have hlater := Chat.later_update hsaid up
  have hall : ∀ q screen, (update s.clients peer c q).screen = some screen →
      ∃ lines, screen = printed lines ∧ (lines ≠ [] → s.Spoke q) ∧ ∀ l ∈ lines, s.Says l.1 l.2 := by
    intro q screen hq
    by_cases hpeer : q = peer
    · subst hpeer
      rw [update_self] at hq
      exact hscreen screen hq
    · rw [update_of_ne hpeer] at hq
      exact h.screen q screen hq
  refine ⟨fun q message hmem => ?_, hup, fun user hu => (h.users user hu).later hlater,
    h.key.imp_right fun ⟨q, hq, hspoke⟩ => ⟨q, hq, hspoke.later hlater⟩, fun d hd => ?_,
    fun q screen hq => ?_, fun q hq => ?_⟩
  · by_cases hpeer : q = peer
    · subst hpeer
      simp only [update_self] at hmem
      exact hplain message hmem
    · simp only [update_of_ne hpeer] at hmem
      exact h.plain q message hmem
  · obtain ⟨hspoke, q, t, htold, hd⟩ := h.down d hd
    exact ⟨hspoke.later hlater, q, t, htold.later hlater, hd⟩
  · obtain ⟨lines, hlines, hspoke, htold⟩ := hall q screen hq
    exact ⟨lines, hlines, fun hne => (hspoke hne).later hlater,
      fun l hl => (htold l hl).later hlater⟩
  · have hover : ∃ q t, s.Says q t ∧ readSendMaxSize ≤ (broadcastText q t).length := by
      by_cases hpeer : q = peer
      · subst hpeer
        simp only [update_self] at hq
        exact hoverflow hq
      · simp only [update_of_ne hpeer] at hq
        exact h.overflow q hq
    obtain ⟨q, t, htold, hlen⟩ := hover
    exact ⟨q, t, htold.later hlater, hlen⟩

/-- **A line is typed.**  It is said from then on, and may reach the server at
any time, once, more often or not at all. -/
theorem Honest.type (h : Honest s) {peer : SockaddrIn} {message : List UInt8} {c : Client}
    {sent : Option (List UInt8)} (hplain : (10 : UInt8) ∉ message)
    (hc : (s.clients peer).type message = some (c, sent)) :
    Honest { s with
      clients := update s.clients peer c
      up := s.up ++ (sent.map fun bytes => (peer, bytes)).toList } := by
  unfold Client.type at hc
  split_ifs at hc
  · obtain ⟨rfl, rfl⟩ := Prod.mk.inj (Option.some.inj hc)
    refine h.client _ (List.Subset.refl _) (h.plain peer) (fun p hp => ?_) (h.screen peer)
      (h.overflow peer)
    have hmem := h.up p (by simpa using hp)
    by_cases hpeer : p.1 = peer
    · rw [hpeer, update_self]
      rwa [hpeer] at hmem
    · rwa [update_of_ne hpeer]
  · obtain ⟨rfl, rfl⟩ := Prod.mk.inj (Option.some.inj hc)
    refine h.client _ (List.subset_append_left _ _) (fun m hm => ?_) (fun p hp => ?_)
      (h.screen peer) (h.overflow peer)
    · rcases List.mem_append.1 hm with hold | hnew
      · exact h.plain peer m hold
      · rwa [List.mem_singleton.1 hnew]
    · rcases List.mem_append.1 hp with hold | hnew
      · have hmem := h.up p hold
        by_cases hpeer : p.1 = peer
        · rw [hpeer, update_self]
          rw [hpeer] at hmem
          exact List.mem_append_left _ hmem
        · rwa [update_of_ne hpeer]
      · obtain rfl : p = (peer, message) := by simpa using hnew
        simp

/-- What may stand behind a name holds no zero byte and no newline.  So a line
on the screen can be read back in one way only. -/
theorem Honest.notMem (h : Honest s) {q : SockaddrIn} {t : List UInt8} (ht : s.Says q t) :
    0 ∉ t ∧ (10 : UInt8) ∉ t := by
  rcases ht.2 with rfl | ⟨message, hmem, rfl⟩
  · exact ⟨List.not_mem_nil, List.not_mem_nil⟩
  · refine ⟨fun h0 => ?_, fun h10 => ?_⟩
    · rw [text] at h0
      exact absurd (List.mem_takeWhile_imp h0) (by decide)
    · exact h.plain q message hmem
        (List.mem_of_mem_take ((text_initial (taken message)).subset h10))

/-- **A datagram is shown.**  It is a line on the screen, or too long for the
client, which then has overflowed. -/
theorem Honest.hear (h : Honest s) {d : Datagram} (hd : d ∈ s.down) {c : Client}
    (hc : (s.clients d.dest).hear d.content = some c) :
    Honest { s with clients := update s.clients d.dest c } := by
  obtain ⟨screen, hscreen, rfl⟩ := Option.map_eq_some_iff.1 hc
  obtain ⟨hspoke, q, t, htold, hcontent⟩ := h.down d hd
  obtain ⟨lines, rfl, hlines, hall⟩ := h.screen d.dest screen hscreen
  have hzero := zero_notMem_broadcastText q (h.notMem htold).1
  have hne : broadcastText q t ≠ [] := by simp [broadcastText, separator]
  refine h.client s.up (List.Subset.refl _) (h.plain d.dest) (fun p hp => ?_)
    (fun screen' hscreen' => ?_) (fun hover => ?_)
  · have hmem := h.up p hp
    by_cases hpeer : p.1 = d.dest
    · rw [hpeer, update_self]
      rwa [hpeer] at hmem
    · rwa [update_of_ne hpeer]
  · rw [hcontent] at hscreen'
    rcases Nat.lt_or_ge (broadcastText q t).length readSendMaxSize with hlt | hge
    · rw [recvRound_short hzero hne hlt] at hscreen'
      refine ⟨lines ++ [(q, t)], ?_, fun _ => hspoke, fun l hl => ?_⟩
      · rw [← Option.some.inj hscreen']
        simp [printed]
      · rcases List.mem_append.1 hl with hold | hnew
        · exact hall l hold
        · rw [List.mem_singleton.1 hnew]
          exact htold
    · rw [recvRound_long hge] at hscreen'
      cases hscreen'
  · rw [hcontent] at hover
    rcases Nat.lt_or_ge (broadcastText q t).length readSendMaxSize with hlt | hge
    · rw [recvRound_short hzero hne hlt] at hover
      cases hover
    · exact ⟨q, t, htold, hge⟩

/-- **Nobody makes anything up,** in any reachable state.  What the network
does is to deliver what was sent, so that it cannot either. -/
theorem honest {key : List UInt8} (hs : (chats v key).Reachable s) : Honest s := by
  refine hs.invariant (I := Honest) ?_ ?_
  · rintro s rfl
    exact honest_new key
  · rintro s s' - h ⟨a, -, ha⟩
    cases a with
    | type peer message =>
      simp only [Chat.step] at ha
      split_ifs at ha with hplain
      obtain ⟨⟨c, sent⟩, hc, rfl⟩ := Option.map_eq_some_iff.1 ha
      exact h.type hplain hc
    | receive peer message =>
      simp only [Chat.step] at ha
      split_ifs at ha with hmem
      obtain rfl := Option.some.inj ha
      refine h.round fun q hq => ?_
      obtain ⟨bytes, fits, heq, hne, -⟩ := message_of_speaker hq
      obtain ⟨rfl, rfl⟩ : peer = q ∧ taken message = bytes := by
        simpa using heq
      rw [text_received]
      have hsaid := h.up _ hmem
      refine ⟨⟨message, hsaid, fun hnil => hne ?_⟩, .inr ⟨message, hsaid, rfl⟩⟩
      rw [hnil]
      rfl
    | fail =>
      obtain rfl := Option.some.inj ha
      exact h.round fun q hq => by cases hq
    | hear d =>
      simp only [Chat.step] at ha
      split_ifs at ha with hmem
      obtain ⟨c, hc, rfl⟩ := Option.map_eq_some_iff.1 ha
      exact h.hear hmem hc

/-- **What a client shows was said.**  In every reachable state of the chat,
whatever the network has lost, repeated or reordered and however the server
traverses its table: the screen of a client that has not overflowed consists of
lines `name # text`, and there are none unless the client has spoken; each name
is that of a client that has spoken, and the text is empty or what the server
takes of a message typed at just that client; the screen can be read as such
lines in one way only.  A client has overflowed only if some such line has 1024
bytes or more. -/
theorem authentic (v : Traversal) (key : List UInt8) {s : Chat} (hs : (chats v key).Reachable s)
    (peer : SockaddrIn) :
    (∀ screen, (s.clients peer).screen = some screen →
      ∃ lines, screen = printed lines ∧ (lines ≠ [] → s.Spoke peer) ∧
        (∀ l ∈ lines, s.Says l.1 l.2) ∧
        ∀ lines', screen = printed lines' → (∀ l ∈ lines', (10 : UInt8) ∉ l.2) → lines' = lines) ∧
    ((s.clients peer).screen = none →
      ∃ q t, s.Says q t ∧ readSendMaxSize ≤ (broadcastText q t).length) := by
  have h := honest hs
  refine ⟨fun screen hscreen => ?_, h.overflow peer⟩
  obtain ⟨lines, rfl, hspoke, htold⟩ := h.screen peer screen hscreen
  refine ⟨lines, rfl, hspoke, htold, fun lines' heq hplain => ?_⟩
  exact (printed_inj (fun l hl => (h.notMem (htold l hl)).2) hplain heq).symm

/-- `"hi"` under the name of its client. -/
def hiLine : List UInt8 := broadcastText localPeer [104, 105]

/-- `"hi"` is typed, received, and shown twice. -/
theorem authentic_hi : ∃ s : Chat, (chats inOrder []).Reachable s ∧
    (s.clients localPeer).screen = some (hiLine ++ [10] ++ (hiLine ++ [10])) ∧
    ∃ lines, hiLine ++ [10] ++ (hiLine ++ [10]) = printed lines ∧ ∀ l ∈ lines, s.Says l.1 l.2 := by
  have h₀ : (chats inOrder []).Reachable (.new []) := .init rfl
  have h₁ := h₀.next (a := .type localPeer [104, 105]) rfl
  have h₂ := h₁.next (a := .receive localPeer [104, 105]) rfl
  have h₃ := h₂.next (a := .hear ⟨localPeer, hiLine⟩) rfl
  have h₄ := h₃.next (a := .hear ⟨localPeer, hiLine⟩) rfl
  obtain ⟨lines, hlines, -, htold, -⟩ := (authentic inOrder [] h₄ localPeer).1 _ rfl
  exact ⟨_, h₄, rfl, lines, hlines, htold⟩

end UdpServer
end OSNetWorkCode
