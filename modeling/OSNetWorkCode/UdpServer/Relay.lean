/-
# When the UDP server relays exactly what was said

What the server is for (`Relays`): a non-empty datagram goes once to everybody
who has spoken so far, under the sender's name, and nothing else is sent; so
each user hears everything from his own first message on.

`_users` holds exactly those who have spoken, each once (`Known`), since the
text under which a sender is entered tells the sender.  The rounds of non-empty
datagrams are as they should be (`sent_of_speaker`).  The broadcast is outside
the branch, though: a round in which `recvfrom` failed or returned nothing
sends the last speaker's `key` with no text to all users, as soon as there is
one (`sent_of_silent`).  So the server relays exactly what was said if and only
if it fails and hears nothing but before the first message (`relays_iff`).
-/

import Mathlib.Data.List.Dedup
import Mathlib.Data.List.Induction
import OSNetWorkCode.UdpServer.Model

namespace OSNetWorkCode
namespace UdpServer

open CString Net

/-- Who said something: the sender of a non-empty datagram. -/
def Recv.speaker? : Recv → Option SockaddrIn
  | .failed => none
  | .received peer bytes _ => if bytes = [] then none else some peer

/-- What the users are to be told of a datagram: who said what. -/
def Recv.message? : Recv → Option (List UInt8)
  | .failed => none
  | .received peer bytes _ => if bytes = [] then none else some (keyText peer ++ separator ++ bytes)

/-- The endpoints that have said something. -/
def speakers (rs : List Recv) : List SockaddrIn := (rs.filterMap Recv.speaker?).dedup

/-- What is to be sent when `r` comes after `rs`: its message to everybody who
has spoken, the sender included. -/
def relayed (rs : List Recv) (r : Recv) : List Datagram :=
  match r.message? with
  | none => []
  | some msg => (speakers (rs ++ [r])).map fun peer => ⟨peer, msg⟩

/-- The contents sent to one endpoint over all rounds. -/
def traffic (out : List (List Datagram)) (peer : SockaddrIn) : List (List UInt8) :=
  (out.flatten.filter fun d => d.dest = peer).map Datagram.content

/-- The messages from the first one of `peer` on. -/
def heard (rs : List Recv) (peer : SockaddrIn) : List (List UInt8) :=
  (rs.dropWhile fun r => r.speaker? ≠ some peer).filterMap Recv.message?

/-- Nobody is counted twice among those who have spoken. -/
theorem nodup_speakers (rs : List Recv) : (speakers rs).Nodup := List.nodup_dedup _

/-- The server relays exactly what was said: in each round what is to be sent,
in some order, and so to each endpoint what it is to hear. -/
def Relays (v : Traversal) (s : Server) (rs : List Recv) : Prop :=
  (∀ before r rest, rs = before ++ r :: rest →
    ((s.after before).sent v r).Perm (relayed before r)) ∧
  ∀ peer, traffic (s.start v rs) peer = heard rs peer

/-- No byte of a datagram is zero. -/
def Recv.NulFree : Recv → Prop
  | .failed => True
  | .received _ bytes _ => 0 ∉ bytes

/-- `recvfrom` neither fails nor returns nothing after the first message. -/
def QuietOnlyBefore (rs : List Recv) : Prop :=
  ∀ before r rest, rs = before ++ r :: rest → r.speaker? = none → speakers before = []

/-! ### One round -/

/-- One round more after some rounds. -/
theorem Server.after_append (s : Server) (rs : List Recv) (r : Recv) :
    s.after (rs ++ [r]) = (s.after rs).receive r := by
  simp [after]

/-- Whoever speaks has a message: the sender's text, the separator and what was
received. -/
theorem message_of_speaker {r : Recv} {peer : SockaddrIn} (h : r.speaker? = some peer) :
    ∃ bytes fits, r = .received peer bytes fits ∧ bytes ≠ [] ∧
      r.message? = some (keyText peer ++ separator ++ bytes) := by
  cases r with
  | failed => cases h
  | received peer' bytes fits =>
    have hne : bytes ≠ [] := fun hnil => by simp [Recv.speaker?, hnil] at h
    have hpeer : peer' = peer := by simpa [Recv.speaker?, hne] using h
    subst hpeer
    exact ⟨bytes, fits, rfl, hne, if_neg hne⟩

/-- A round in which nobody speaks has no message. -/
theorem message_of_silent {r : Recv} (h : r.speaker? = none) : r.message? = none := by
  cases r with
  | failed => rfl
  | received peer bytes fits =>
    have hnil : bytes = [] := by simpa [Recv.speaker?] using h
    simp [Recv.message?, hnil]

/-- A round without a message leaves the server as it was.  In particular `key`
holds what it held. -/
theorem receive_of_silent {r : Recv} (s : Server) (h : r.speaker? = none) : s.receive r = s := by
  cases r with
  | failed => rfl
  | received peer bytes fits =>
    have hnil : bytes = [] := by simpa [Recv.speaker?] using h
    simp [Server.receive, hnil]

/-- **`key` is long enough** for the text of every endpoint, so that `snprintf`
cuts nothing off. -/
theorem text_key (peer : SockaddrIn) :
    text (snprintf (List.replicate 64 0) (keyText peer)) = keyText peer := by
  rw [text_snprintf (zero_notMem_keyText peer)]
  have hlen := length_keyText_le peer
  exact List.take_of_length_le (by simp; omega)

/-- A message leaves its sender's text in `key`, and the sender among the
users, once: who is found under the text is not entered again. -/
theorem receive_of_speaker {r : Recv} {peer : SockaddrIn} (s : Server)
    (h : r.speaker? = some peer) :
    text (s.receive r).key = keyText peer ∧
      (s.receive r).users = if s.users.any (fun user => user.1 = keyText peer) then s.users
        else s.users ++ [(keyText peer, peer)] := by
  obtain ⟨bytes, fits, rfl, hne, -⟩ := message_of_speaker h
  have hpos : bytes.length > 0 := List.length_pos_iff.2 hne
  simp only [Server.receive, if_pos hpos, text_key]
  cases hfind : s.users.find? fun user => user.1 = keyText peer with
  | none =>
    have hany : s.users.any (fun user => user.1 = keyText peer) = false := by
      rw [List.find?_eq_none] at hfind
      simpa using hfind
    rw [hany]
    exact ⟨text_key peer, rfl⟩
  | some user =>
    have hany : s.users.any (fun user => user.1 = keyText peer) = true := by
      rw [List.any_eq_true]
      have htext := List.find?_some hfind
      exact ⟨user, List.mem_of_find?_eq_some hfind, htext⟩
    rw [hany]
    exact ⟨text_key peer, rfl⟩

/-- The buffer reads back as the datagram.  It was zeroed before, and one byte
at least is left. -/
theorem text_buffer {peer : SockaddrIn} {bytes : List UInt8} {fits}
    (h : (Recv.received peer bytes fits).NulFree) :
    text (Recv.received peer bytes fits).buffer = bytes := by
  simp only [Recv.buffer, blit, List.drop_replicate]
  exact text_append_replicate h _

/-! ### The users -/

/-- `_users` holds those who have spoken, each once, under the text that tells
him. -/
structure Known (rs : List Recv) (s : Server) : Prop where
  keyed : ∀ user ∈ s.users, user.1 = keyText user.2
  nodup : (s.users.map Prod.snd).Nodup
  mem : ∀ peer, peer ∈ s.users.map Prod.snd ↔ peer ∈ rs.filterMap Recv.speaker?

/-- A server just constructed knows nobody. -/
theorem known_new (key : List UInt8) : Known [] (.new key) :=
  ⟨by simp [Server.new], by simp [Server.new], by simp [Server.new]⟩

/-- **A round keeps the table of users right.**  That the look-up is by text
and not by endpoint makes no difference, since the text tells the endpoint. -/
theorem Known.receive {rs : List Recv} {s : Server} (h : Known rs s) (r : Recv) :
    Known (rs ++ [r]) (s.receive r) := by
  cases hr : r.speaker? with
  | none =>
    rw [receive_of_silent s hr]
    refine ⟨h.keyed, h.nodup, fun peer => ?_⟩
    rw [List.filterMap_append, List.mem_append, h.mem peer]
    simp [hr]
  | some peer =>
    obtain ⟨-, husers⟩ := receive_of_speaker s hr
    have hfound : s.users.any (fun user => user.1 = keyText peer) = true ↔
        peer ∈ s.users.map Prod.snd := by
      rw [List.any_eq_true, List.mem_map]
      constructor
      · rintro ⟨user, huser, htext⟩
        have htext : user.1 = keyText peer := by simpa using htext
        rw [h.keyed user huser] at htext
        exact ⟨user, huser, keyText_injective htext⟩
      · rintro ⟨user, huser, rfl⟩
        exact ⟨user, huser, by simpa using h.keyed user huser⟩
    have hspoken : ∀ q, q ∈ (rs ++ [r]).filterMap Recv.speaker? ↔
        q ∈ s.users.map Prod.snd ∨ q = peer := by
      intro q
      rw [List.filterMap_append, List.mem_append, h.mem q]
      simp [hr, eq_comm]
    by_cases hany : s.users.any (fun user => user.1 = keyText peer) = true
    · rw [if_pos hany] at husers
      have hpeer := hfound.1 hany
      refine ⟨?_, ?_, fun q => ?_⟩
      · rw [husers]
        exact h.keyed
      · rw [husers]
        exact h.nodup
      · rw [husers, hspoken q]
        constructor
        · exact .inl
        · rintro (hq | rfl)
          · exact hq
          · exact hpeer
    · rw [if_neg hany] at husers
      have hnew : peer ∉ s.users.map Prod.snd := fun hp => hany (hfound.2 hp)
      refine ⟨?_, ?_, fun q => ?_⟩
      · rw [husers]
        intro user huser
        rcases List.mem_append.1 huser with hold | hlast
        · exact h.keyed user hold
        · obtain rfl := List.mem_singleton.1 hlast
          rfl
      · rw [husers, List.map_append]
        refine List.nodup_append'.2 ⟨h.nodup, List.nodup_singleton _, ?_⟩
        simpa using hnew
      · rw [husers, hspoken q]
        simp

/-- **The users are those who have spoken,** after any rounds, by induction on
them. -/
theorem known_after (key : List UInt8) (rs : List Recv) : Known rs ((Server.new key).after rs) := by
  induction rs using List.reverseRecOn with
  | nil => exact known_new key
  | append_singleton rs r ih =>
    rw [Server.after_append]
    exact ih.receive r

/-- The addresses in the table are those who have spoken, in some order. -/
theorem Known.perm {rs : List Recv} {s : Server} (h : Known rs s) :
    (s.users.map Prod.snd).Perm (speakers rs) := by
  refine (List.perm_ext_iff_of_nodup h.nodup (nodup_speakers rs)).2 fun peer => ?_
  exact (h.mem peer).trans List.mem_dedup.symm

/-! ### What is sent -/

/-- **A message goes to everybody who has spoken,** once each, under its
sender's name.  The sender is in the table by then, so that he gets it too. -/
theorem Known.sent_of_speaker {rs : List Recv} {s : Server} (h : Known rs s) (v : Traversal)
    {r : Recv} {peer : SockaddrIn} (hr : r.speaker? = some peer) (hnul : r.NulFree) :
    (s.sent v r).Perm (relayed rs r) := by
  obtain ⟨hkey, -⟩ := receive_of_speaker s hr
  obtain ⟨bytes, fits, rfl, -, hmsg⟩ := message_of_speaker hr
  have hperm := (h.receive (.received peer bytes fits)).perm
  rw [Server.sent, Server.broadcast, hkey, text_buffer hnul, relayed, hmsg]
  have hvisit := (v.perm (s.receive (.received peer bytes fits)).users).map fun user =>
    Datagram.mk user.2 (keyText peer ++ separator ++ bytes)
  have hnames := hperm.map fun q => Datagram.mk q (keyText peer ++ separator ++ bytes)
  rw [List.map_map] at hnames
  exact hvisit.trans hnames

/-- **A round without a message sends all the same,** if there is a user: the
loop over `_users` stands outside the test for a non-empty datagram. -/
theorem sent_of_silent (v : Traversal) {s : Server} {r : Recv} (hr : r.speaker? = none) :
    s.sent v r = [] ↔ s.users = [] := by
  rw [Server.sent, Server.broadcast, receive_of_silent s hr, List.map_eq_nil_iff]
  constructor
  · intro hvisit
    have hlen := (v.perm s.users).length_eq
    rw [hvisit] at hlen
    exact List.length_eq_zero_iff.1 hlen.symm
  · intro husers
    have hperm := v.perm s.users
    rw [husers] at hperm ⊢
    exact hperm.eq_nil

/-- There is a user as soon as somebody has spoken, and not before.  The server
sends nothing until then. -/
theorem Known.users_eq_nil {rs : List Recv} {s : Server} (h : Known rs s) :
    s.users = [] ↔ speakers rs = [] := by
  have hlen := h.perm.length_eq
  rw [List.length_map] at hlen
  rw [← List.length_eq_zero_iff, ← List.length_eq_zero_iff, hlen]

/-! ### What each user hears -/

/-- What `start` sends in one round more. -/
theorem Server.start_append (v : Traversal) (s : Server) (rs : List Recv) (r : Recv) :
    s.start v (rs ++ [r]) = s.start v rs ++ [(s.after rs).sent v r] := by
  induction rs generalizing s with
  | nil => rfl
  | cons q rs ih =>
    rw [List.cons_append, Server.start, Server.start, ih, List.cons_append]
    rfl

/-- What one endpoint is sent comes round after round. -/
theorem traffic_append (out : List (List Datagram)) (ds : List Datagram) (peer : SockaddrIn) :
    traffic (out ++ [ds]) peer = traffic out peer ++ traffic [ds] peer := by
  simp [traffic]

/-- What one round is to bring to `peer`: the message, if he has spoken by
then, and nothing else. -/
theorem traffic_relayed (rs : List Recv) (r : Recv) (peer : SockaddrIn) :
    traffic [relayed rs r] peer = if peer ∈ speakers (rs ++ [r]) then r.message?.toList else [] := by
  unfold traffic relayed
  cases r.message? with
  | none => simp
  | some msg =>
    have hfilter : (speakers (rs ++ [r])).filter (fun q => q = peer) =
        if peer ∈ speakers (rs ++ [r]) then [peer] else [] := by
      rw [List.filter_eq]
      split_ifs with hmem
      · rw [List.count_eq_one_of_mem (nodup_speakers _) hmem]
        rfl
      · rw [List.count_eq_zero_of_not_mem hmem]
        rfl
    rw [List.flatten_singleton, List.filter_map]
    show ((((speakers (rs ++ [r])).filter fun q => decide (q = peer)).map _).map _) = _
    rw [hfilter]
    split_ifs <;> rfl

/-- The order of a round does not matter to one endpoint, which gets at most
one datagram in it. -/
theorem traffic_perm {ds es : List Datagram} {peer : SockaddrIn} (h : ds.Perm es)
    (hle : (traffic [es] peer).length ≤ 1) : traffic [ds] peer = traffic [es] peer := by
  have hperm : (traffic [ds] peer).Perm (traffic [es] peer) := by
    simpa [traffic] using (h.filter _).map Datagram.content
  match hes : traffic [es] peer with
  | [] =>
    rw [hes] at hperm
    exact hperm.eq_nil
  | [msg] =>
    rw [hes] at hperm
    exact List.perm_singleton.1 hperm
  | _ :: _ :: _ =>
    rw [hes] at hle
    simp at hle

/-- What `peer` hears of one round more.  His own first message is the first he
hears, as he is entered before the message is sent to all. -/
theorem heard_append (rs : List Recv) (r : Recv) (peer : SockaddrIn) :
    heard (rs ++ [r]) peer =
      heard rs peer ++ if peer ∈ speakers (rs ++ [r]) then r.message?.toList else [] := by
  unfold heard
  rw [List.dropWhile_append]
  by_cases hspoke : peer ∈ speakers rs
  · -- `peer` has spoken before: the messages after that go on with this one
    have hmem : peer ∈ speakers (rs ++ [r]) := by
      simp only [speakers, List.mem_dedup, List.filterMap_append, List.mem_append] at hspoke ⊢
      exact .inl hspoke
    have hne : (rs.dropWhile fun r => r.speaker? ≠ some peer) ≠ [] := by
      intro hnil
      rw [List.dropWhile_eq_nil_iff] at hnil
      obtain ⟨q, hq, hqp⟩ := List.mem_filterMap.1 (List.mem_dedup.1 hspoke)
      simpa [hqp] using hnil q hq
    rw [if_neg (by simpa using hne), if_pos hmem, List.filterMap_append]
    cases hmsg : r.message? <;> simp [hmsg]
  · have hnil : (rs.dropWhile fun r => r.speaker? ≠ some peer) = [] := by
      rw [List.dropWhile_eq_nil_iff]
      intro q hq
      have hqp : q.speaker? ≠ some peer := fun hqp =>
        hspoke (List.mem_dedup.2 (List.mem_filterMap.2 ⟨q, hq, hqp⟩))
      simpa using hqp
    rw [hnil, if_pos (show [].isEmpty = true from rfl), List.filterMap_nil, List.nil_append]
    by_cases hr : r.speaker? = some peer
    · have hmem : peer ∈ speakers (rs ++ [r]) := by
        simp [speakers, hr]
      rw [if_pos hmem, List.dropWhile_cons_of_neg (by simpa using hr)]
      cases hmsg : r.message? <;> simp [hmsg]
    · have hmem : peer ∉ speakers (rs ++ [r]) := by
        simp only [speakers, List.mem_dedup, List.filterMap_append, List.mem_append]
        rintro (hold | hnew)
        · exact hspoke (List.mem_dedup.2 hold)
        · obtain ⟨q, hq, hqp⟩ := List.mem_filterMap.1 hnew
          rw [List.mem_singleton.1 hq] at hqp
          exact hr hqp
      rw [if_neg hmem, List.dropWhile_cons_of_pos (by simpa using hr)]
      rfl

/-- **Where every round is as it should be, each user hears everything from his
first message on.**  By induction on the rounds, from the last one. -/
theorem traffic_start (v : Traversal) (s : Server) (rs : List Recv)
    (h : ∀ before r rest, rs = before ++ r :: rest →
      ((s.after before).sent v r).Perm (relayed before r)) (peer : SockaddrIn) :
    traffic (s.start v rs) peer = heard rs peer := by
  induction rs using List.reverseRecOn with
  | nil => rfl
  | append_singleton rs r ih =>
    have hround := h rs r [] rfl
    have hrest := ih fun before q rest hq => h before q (rest ++ [r]) (by rw [hq]; simp)
    have hle : (traffic [relayed rs r] peer).length ≤ 1 := by
      rw [traffic_relayed]
      split_ifs
      · cases r.message? <;> simp
      · simp
    rw [Server.start_append, traffic_append, hrest, traffic_perm hround hle, traffic_relayed,
      heard_append]

/-- Where `recvfrom` is quiet at most before the first message, the server
relays what was said: a quiet round before it finds no user to send to. -/
theorem relays_of_quiet (v : Traversal) (key : List UInt8) {rs : List Recv}
    (hnul : ∀ r ∈ rs, r.NulFree) (hquiet : QuietOnlyBefore rs) : Relays v (.new key) rs := by
  have hrounds : ∀ before r rest, rs = before ++ r :: rest →
      (((Server.new key).after before).sent v r).Perm (relayed before r) := by
    intro before r rest hrs
    have hknown := known_after key before
    cases hr : r.speaker? with
    | some peer =>
      exact hknown.sent_of_speaker v hr (hnul r (by rw [hrs]; simp))
    | none =>
      have husers := hknown.users_eq_nil.2 (hquiet before r rest hrs hr)
      rw [relayed, message_of_silent hr, (sent_of_silent v hr).2 husers]
  exact ⟨hrounds, traffic_start v _ rs hrounds⟩

/-- **Exactly when the server relays what was said.**  For every sequence of
results of `recvfrom` whose datagrams are free of zero bytes, and every order
of traversal: the server relays exactly what was said if and only if `recvfrom`
neither fails nor returns nothing after the first message. -/
theorem relays_iff (v : Traversal) (key : List UInt8) (rs : List Recv)
    (hnul : ∀ r ∈ rs, r.NulFree) : Relays v (.new key) rs ↔ QuietOnlyBefore rs := by
  constructor
  · rintro ⟨hrounds, -⟩ before r rest hrs hr
    have hround := hrounds before r rest hrs
    rw [relayed, message_of_silent hr] at hround
    have hnil := (sent_of_silent v hr).1 hround.eq_nil
    exact ((known_after key before).users_eq_nil).1 hnil
  · exact relays_of_quiet v key hnul

/-- A traversal in the order of insertion. -/
def inOrder : Traversal := ⟨id, .refl⟩

/-- `127.0.0.1`, port `8080`. -/
def localPeer : SockaddrIn := ⟨(127, 0, 0, 1), (31, 144)⟩

/-- `recvfrom` delivers `"hi"`, then fails. -/
def hiThenFailed : List Recv := [.received localPeer [104, 105] (by decide), .failed]

/-- **A failed `recvfrom` is broadcast:** the user who said `"hi"` is sent
`"127.0.0.1-8080 # "`, a message with no text that nobody said. -/
theorem failure_is_broadcast :
    (Server.new (List.replicate 64 0)).start inOrder hiThenFailed =
      [[⟨localPeer, keyText localPeer ++ separator ++ [104, 105]⟩],
        [⟨localPeer, keyText localPeer ++ separator⟩]] ∧
    ¬ Relays inOrder (.new (List.replicate 64 0)) hiThenFailed := by
  refine ⟨by decide, fun h => ?_⟩
  have hround := h.1 [.received localPeer [104, 105] (by decide)] .failed [] rfl
  exact absurd hround.length_eq (by decide)

/-- Nothing said, nothing sent: a failure, then a message.  As no message came
before the failure, there is none that could be sent again. -/
theorem relays_iff_hi :
    Relays inOrder (.new []) [.failed, .received localPeer [104, 105] (by decide)] := by
  refine (relays_iff inOrder [] _ ?_).2 ?_
  · intro r hr
    rcases List.mem_cons.1 hr with rfl | hr
    · trivial
    · obtain rfl := List.mem_singleton.1 hr
      show (0 : UInt8) ∉ [104, 105]
      decide
  · intro before r rest hrs hr
    match before with
    | [] => rfl
    | [_] =>
      simp only [List.cons_append, List.nil_append, List.cons.injEq] at hrs
      rw [← hrs.2.1] at hr
      cases hr
    | _ :: _ :: _ => simp at hrs

end UdpServer
end OSNetWorkCode
