/-
# The table of users is the set of endpoints that have spoken

`_users` is indexed by text, and a text is printed into an array of 64 bytes.
No endpoint's text is that long and no two endpoints have the same
(`keyText_injective`), so one entry is one endpoint.  Nothing is ever taken out
of the table or changed in it: a round leaves it or appends to it
(`users_prefix_receive`).

`users_exactly` puts this together for every sequence of results of `recvfrom`.
The broadcast at the end of each round goes once to each endpoint in the table,
in whatever order the table is traversed.
-/

import OSNetWorkCode.UdpServer.Relay

namespace OSNetWorkCode
namespace UdpServer

open CString Net

/-- The key under which `start` looks for an endpoint: what the array holds
after `snprintf`. -/
def keyOf (peer : SockaddrIn) : List UInt8 :=
  text (snprintf (List.replicate 64 0) (keyText peer))

/-- **A round leaves the table or appends to it.**  The branch that finds the
sender registered changes nothing, and there is no other that removes. -/
theorem users_prefix_receive (s : Server) (r : Recv) : s.users <+: (s.receive r).users := by
  cases hr : r.speaker? with
  | none =>
    exact ⟨[], by rw [receive_of_silent s hr, List.append_nil]⟩
  | some peer =>
    obtain ⟨-, husers⟩ := receive_of_speaker s hr
    rw [husers]
    split_ifs
    · exact List.prefix_rfl
    · exact List.prefix_append ..

/-- Entries stay where they are, round after round. -/
theorem users_prefix_after (s : Server) (rs : List Recv) : s.users <+: (s.after rs).users := by
  induction rs generalizing s with
  | nil => exact List.prefix_rfl
  | cons r rs ih => exact (users_prefix_receive s r).trans (ih (s.receive r))

/-- The table is those who have spoken with their texts, in some order.  The
traversal of an `unordered_map` may be any. -/
theorem Known.users_perm {rs : List Recv} {s : Server} (h : Known rs s) :
    s.users.Perm ((speakers rs).map fun peer => (keyText peer, peer)) := by
  have hentries : s.users = (s.users.map Prod.snd).map fun peer => (keyText peer, peer) := by
    rw [List.map_map]
    refine (List.map_id s.users).symm.trans (List.map_congr_left fun user huser => ?_)
    exact Prod.ext (h.keyed user huser) rfl
  rw [hentries]
  exact h.perm.map _

/-- Two entries never have the same key, since two endpoints never have the
same text. -/
theorem Known.keys_nodup {rs : List Recv} {s : Server} (h : Known rs s) :
    (s.users.map Prod.fst).Nodup := by
  have hkeys : s.users.map Prod.fst = (s.users.map Prod.snd).map keyText := by
    rw [List.map_map]
    exact List.map_congr_left fun user huser => h.keyed user huser
  rw [hkeys]
  exact h.nodup.map keyText_injective

/-- **A broadcast goes once to everybody in the table.**  The order of the
traversal is left open, and does not matter for this. -/
theorem Known.dest_perm {rs : List Recv} {s : Server} (h : Known rs s) (v : Traversal) (r : Recv) :
    ((s.sent v r).map Datagram.dest).Perm (speakers (rs ++ [r])) := by
  have hvisit := (v.perm (s.receive r).users).map Prod.snd
  have hdest : (s.sent v r).map Datagram.dest = (v.visit (s.receive r).users).map Prod.snd := by
    rw [Server.sent, Server.broadcast, List.map_map]
    rfl
  rw [hdest]
  exact hvisit.trans (h.receive r).perm

/-- **The user table is exactly the set of endpoints that have spoken.**  After
any rounds `_users` has one entry for each endpoint a non-empty datagram came
from and no other, with the endpoint's text as key and the endpoint as address;
no two keys are equal; whatever comes after leaves these entries as they are;
the next broadcast goes once to each endpoint that has spoken by then; and the
text of an endpoint tells it and fits into the array. -/
theorem users_exactly (key : List UInt8) (rs : List Recv) :
    ((Server.new key).after rs).users.Perm ((speakers rs).map fun peer => (keyOf peer, peer)) ∧
      (((Server.new key).after rs).users.map Prod.fst).Nodup ∧
      (∀ rs', ((Server.new key).after rs).users <+: (((Server.new key).after rs).after rs').users) ∧
      (∀ v r, ((((Server.new key).after rs).sent v r).map Datagram.dest).Perm
        (speakers (rs ++ [r]))) ∧
      (∀ peer, keyOf peer = keyText peer ∧ (keyText peer).length < 64) ∧
      Function.Injective keyOf := by
  have hknown := known_after key rs
  have hkey : keyOf = keyText := funext text_key
  refine ⟨?_, hknown.keys_nodup, users_prefix_after _, hknown.dest_perm, fun peer => ⟨?_, ?_⟩, ?_⟩
  · rw [hkey]
    exact hknown.users_perm
  · exact text_key peer
  · have hle := length_keyText_le peer
    omega
  · rw [hkey]
    exact keyText_injective

/-- Two datagrams of one endpoint and an empty one of another leave one
entry. -/
example : ((Server.new []).after [.received localPeer [104] (by decide),
    .received ⟨(10, 0, 0, 1), (0, 80)⟩ [] (by decide),
    .received localPeer [105] (by decide)]).users = [(keyText localPeer, localPeer)] := by
  decide

end UdpServer
end OSNetWorkCode
