/-
# When client and server wait for each other

The client waits for an echo after each line, but a line need not be echoed: an
empty one is not sent at all, and a piece that begins with a zero byte is read
and nothing is written back.  Client and server then wait for each other for
ever, unless bytes of earlier lines are still under way (`standstill_empty`).

Where neither happens while nothing else is under way (`fed`), there is always
some byte under way while the client waits (`not_standstill`); and where one of
them does, the standstill follows (`standstill_of_not_fed`).  For lines without
zero bytes it can be read off their lengths whether the client ever starves:
each `recv` takes at most 1023 bytes of what is left of the echoes
(`starved_iff`).
-/

import OSNetWorkCode.TcpClient.Model

namespace OSNetWorkCode
namespace TcpClient

open CString TcpServer

/-- The step leaves something under way for a client that waits: an empty line
is taken only while some byte is still under way, and a piece that begins with
a zero byte is read only while other bytes are, or before the client takes its
next line. -/
def fed (s : State) : Action → Bool
  | .getline => s.lines.head? ≠ some [] || 0 < s.underway
  | .read n => (s.up.take n).head? ≠ some 0 || n < s.underway ||
      match s.client with
      | .getline => true
      | _ => false
  | _ => true

/-- Lines of these lengths, typed while at least `b` bytes are under way,
always leave some byte under way for the client that waits. -/
def fedBy : ℕ → List ℕ → Bool
  | _, [] => true
  | b, n :: ns => 0 < b + n && fedBy (b + n - (recvSize - 1)) ns

/-- The client waits for an echo, or is about to. -/
def Client.Waits : Client → Prop
  | .getline => False
  | _ => True

section steps

variable {ok : State → Action → Bool} {lines : List (List UInt8)} {s s' : State} {a : Action}

/-- The string of a piece that does not begin with a zero byte is not empty, so
that something of the piece comes back. -/
theorem text_ne_nil {w : List UInt8} (hne : w ≠ []) (h : w.head? ≠ some 0) : text w ≠ [] := by
  cases w with
  | nil => exact absurd rfl hne
  | cons c w =>
    have hc : c ≠ 0 := fun hc => h (by rw [hc]; rfl)
    simp [text, hc]

/-- Nothing is under way while client and server wait for each other, and the
client is the one that waits for an echo. -/
theorem underway_standstill (h : Standstill s) : s.client.Waits ∧ s.underway = 0 := by
  obtain ⟨hc, ⟨buffer, hs⟩, hup, hdown⟩ := h
  constructor
  · rw [hc]
    trivial
  · simp [State.underway, Client.unsent, Service.unwritten, hc, hs, hup, hdown]

/-- **A fed step leaves some byte under way** where the client waits.  Moving
bytes leaves their number; only taking an empty line and reading a piece with a
zero byte need the condition. -/
theorem Steps.underway_pos (h : Steps s a s') (hfed : fed s a = true)
    (hs : s.client.Waits → 0 < s.underway) (hs' : s'.client.Waits) : 0 < s'.underway := by
  cases h with
  | @getline line lines hc hl =>
    simp only [fed, hl, List.head?_cons, Bool.or_eq_true, decide_eq_true_eq, State.underway, hc,
      Client.unsent, List.length_nil] at hfed ⊢
    rcases hfed with hne | hpos
    · have hlen : 0 < line.length := List.length_pos_iff.2 fun hnil => hne (by rw [hnil])
      omega
    · omega
  | @send n rest hc hpos hn =>
    have hunderway := hs (by rw [hc]; trivial)
    simp only [State.underway, Client.unsent, hc, List.length_append, List.length_drop,
      List.length_take] at hunderway ⊢
    omega
  | sent hc =>
    have hunderway := hs (by rw [hc]; trivial)
    simpa only [State.underway, Client.unsent, hc] using hunderway
  | recv hc hpos hn hbuf => exact hs'.elim
  | @read n buffer buffer' hserv hpos hn hbuf =>
    have hunderway := hs hs'
    simp only [fed, Bool.or_eq_true, decide_eq_true_eq, State.underway, Service.unwritten, hserv,
      List.length_nil, List.length_drop] at hfed hunderway ⊢
    rcases hfed with (hhead | hlt) | hclient
    · have hne : s.up.take n ≠ [] := List.ne_nil_of_length_pos (by rw [List.length_take]; omega)
      have hlen := List.length_pos_iff.2 (text_ne_nil hne hhead)
      omega
    · omega
    · have hw : s.client.Waits := hs'
      cases hcl : s.client with
      | getline =>
        rw [hcl] at hw
        exact hw.elim
      | send rest => simp [hcl] at hclient
      | recv => simp [hcl] at hclient
  | @write n buffer rest hserv hpos hn =>
    have hunderway := hs hs'
    simp only [State.underway, Service.unwritten, hserv, List.length_append, List.length_drop,
      List.length_take] at hunderway ⊢
    omega
  | written hserv =>
    have hunderway := hs hs'
    simpa only [State.underway, Service.unwritten, hserv] using hunderway

/-- **In a run whose steps are all fed nobody stands still.**  By induction
along the run, with `Steps.underway_pos` for the step. -/
theorem not_standstill (hs : (sys fed lines).Reachable s) : ¬ Standstill s := by
  have hunderway : s.client.Waits → 0 < s.underway := by
    refine hs.invariant (I := fun s => s.client.Waits → 0 < s.underway) ?_ ?_
    · rintro _ ⟨buffer, rfl⟩ hw
      exact hw.elim
    · rintro s s' - h ⟨a, hfed, hstep⟩
      exact (steps hstep).underway_pos hfed h
  intro h
  obtain ⟨hw, h0⟩ := underway_standstill h
  exact absurd (hunderway hw) (by omega)

/-! ### The converse -/

/-- **A client that waits with nothing under way** ends in the standstill: the
calls under way return, and then there is nothing to read on either side. -/
theorem standstill_of_dry (hs : (runs lines).Reachable s) (hw : s.client.Waits)
    (hdry : s.underway = 0) : ∃ s', (runs lines).Reachable s' ∧ Standstill s' := by
  have hrecv : ∃ s', (runs lines).Reachable s' ∧ s'.client = .recv ∧ s'.underway = 0 := by
    cases hc : s.client with
    | getline =>
      rw [hc] at hw
      exact hw.elim
    | send rest =>
      have hrest : rest = [] := by
        simp only [State.underway, hc, Client.unsent] at hdry
        exact List.length_eq_zero_iff.1 (by omega)
      subst hrest
      refine ⟨_, hs.next (step_sent hc), rfl, ?_⟩
      simpa only [State.underway, hc, Client.unsent] using hdry
    | recv => exact ⟨s, hs, hc, hdry⟩
  obtain ⟨s₁, hs₁, hc₁, hdry₁⟩ := hrecv
  simp only [State.underway, hc₁, Client.unsent, List.length_nil] at hdry₁
  have hup : s₁.up = [] := List.length_eq_zero_iff.1 (by omega)
  have hdown : s₁.down = [] := List.length_eq_zero_iff.1 (by omega)
  cases hserv : s₁.service with
  | read buffer => exact ⟨s₁, hs₁, hc₁, ⟨buffer, hserv⟩, hup, hdown⟩
  | write buffer rest =>
    have hrest : rest = [] := by
      simp only [hserv, Service.unwritten] at hdry₁
      exact List.length_eq_zero_iff.1 (by omega)
    subst hrest
    exact ⟨_, hs₁.next (step_written hserv), hc₁, ⟨buffer, rfl⟩, hup, hdown⟩

/-- **Where a step is not fed, the standstill follows,** since the step leaves
a client that waits with nothing under way.  An empty line is not sent, and of
a piece that begins with a zero byte nothing comes back. -/
theorem standstill_of_not_fed (hs : (runs lines).Reachable s) (h : s.step a = some s')
    (hfed : fed s a = false) : ∃ s'', (runs lines).Reachable s'' ∧ Standstill s'' := by
  have hs' := hs.next h
  cases steps h with
  | @getline line lines hc hl =>
    simp only [fed, hl, List.head?_cons, Bool.or_eq_false_iff, decide_eq_false_iff_not,
      not_not, Option.some.injEq] at hfed
    obtain ⟨rfl, hdry⟩ := hfed
    refine standstill_of_dry hs' trivial ?_
    simp only [State.underway, hc, Client.unsent] at hdry ⊢
    omega
  | @read n buffer buffer' hserv hpos hn hbuf =>
    simp only [fed, Bool.or_eq_false_iff, decide_eq_false_iff_not, not_not] at hfed
    obtain ⟨⟨hhead, hlt⟩, hclient⟩ := hfed
    have htext : text (s.up.take n) = [] := by
      cases hw : s.up.take n with
      | nil => rfl
      | cons c w =>
        rw [hw] at hhead
        simp [text, Option.some.inj hhead]
    refine standstill_of_dry hs' ?_ ?_
    · show s.client.Waits
      cases hcl : s.client with
      | getline => simp [hcl] at hclient
      | send rest | recv => trivial
    · simp only [State.underway, Service.unwritten, hserv, htext, List.length_nil,
        List.length_drop] at hlt ⊢
      omega
  | send | sent | recv | write | written => cases hfed

/-- **Nobody stands still if and only if all steps are fed.**  The condition is
on the state before a step, and both directions hold for every sequence of
lines. -/
theorem not_standstill_iff (lines : List (List UInt8)) :
    (∀ s, (runs lines).Reachable s → ¬ Standstill s) ↔
      ∀ s a s', (runs lines).Reachable s → s.step a = some s' → fed s a = true := by
  constructor
  · intro h s a s' hs hstep
    by_contra hfed
    obtain ⟨s'', hs'', hstill⟩ := standstill_of_not_fed hs hstep (by simpa using hfed)
    exact h s'' hs'' hstill
  · intro h s hs
    exact not_standstill (hs.admitted fun s a s' hs => h s a s' hs.free)

/-! ### Lines without zero bytes -/

/-- More bytes under way feed a client no worse.  So the schedule that leaves
the fewest of them is the one to look at. -/
theorem fedBy_mono {ns : List ℕ} {b c : ℕ} (hbc : b ≤ c) (h : fedBy b ns = true) :
    fedBy c ns = true := by
  induction ns generalizing b c with
  | nil => rfl
  | cons n ns ih =>
    simp only [fedBy, Bool.and_eq_true, decide_eq_true_eq] at h ⊢
    exact ⟨by omega, ih (by omega) h.2⟩

/-- No zero byte was typed, and what is under way feeds the client to the end
of its lines. -/
structure Feeding (s : State) : Prop where
  lines : ∀ line ∈ s.lines, 0 ∉ line
  unsent : 0 ∉ s.client.unsent
  up : 0 ∉ s.up
  idle : s.client = .getline → fedBy s.underway (s.lines.map List.length) = true
  waits : s.client.Waits → 0 < s.underway ∧
    fedBy (s.underway - (recvSize - 1)) (s.lines.map List.length) = true

/-- A step of the server that loses no byte keeps the client fed: what it moves
is under way before and after. -/
theorem Feeding.serves {up down : List UInt8} {service : Service} (h : Feeding s)
    (hup : 0 ∈ up → 0 ∈ s.up)
    (hunderway : s.underway = State.underway { s with
      up := up, down := down, service := service }) :
    Feeding { s with up := up, down := down, service := service } := by
  refine ⟨h.lines, h.unsent, fun hmem => h.up (hup hmem), fun hc => ?_, fun hw => ?_⟩
  · rw [← hunderway]
    exact h.idle hc
  · rw [← hunderway]
    exact h.waits hw

/-- **Every step keeps the client fed.**  A `recv` may take 1023 bytes of what
is under way, which is what `fedBy` reckons with. -/
theorem Feeding.step (h : Feeding s) (hstep : Steps s a s') : Feeding s' := by
  cases hstep with
  | @getline line lines hc hl =>
    have hidle := h.idle hc
    have hlines := h.lines
    rw [hl] at hidle hlines
    simp only [List.map_cons, fedBy, Bool.and_eq_true, decide_eq_true_eq, State.underway, hc,
      Client.unsent, List.length_nil] at hidle
    refine ⟨fun l hmem => hlines l (.tail _ hmem), hlines line (.head _), h.up, nofun, fun _ => ?_⟩
    simp only [State.underway, Client.unsent]
    refine ⟨by omega, fedBy_mono (by omega) hidle.2⟩
  | @send n rest hc hpos hn =>
    have hwaits := h.waits (by rw [hc]; trivial)
    have hunsent := h.unsent
    rw [hc] at hunsent
    refine ⟨h.lines, fun hmem => hunsent (List.mem_of_mem_drop hmem), fun hmem => ?_, nofun,
      fun _ => ?_⟩
    · rcases List.mem_append.1 hmem with hmem | hmem
      · exact h.up hmem
      · exact hunsent (List.mem_of_mem_take hmem)
    · simp only [State.underway, Client.unsent, hc, List.length_append, List.length_drop,
        List.length_take] at hwaits ⊢
      exact ⟨by omega, fedBy_mono (by omega) hwaits.2⟩
  | sent hc =>
    have hwaits := h.waits (by rw [hc]; trivial)
    simp only [State.underway, Client.unsent, hc] at hwaits
    exact ⟨h.lines, List.not_mem_nil, h.up, nofun, fun _ => hwaits⟩
  | @recv n hc hpos hn hbuf =>
    have hwaits := h.waits (by rw [hc]; trivial)
    simp only [State.underway, Client.unsent, hc, List.length_nil] at hwaits
    refine ⟨h.lines, List.not_mem_nil, h.up, fun _ => ?_, fun hw => hw.elim⟩
    simp only [State.underway, Client.unsent, List.length_nil, List.length_drop]
    exact fedBy_mono (by omega) hwaits.2
  | @read n buffer buffer' hserv hpos hn hbuf =>
    refine h.serves List.mem_of_mem_drop ?_
    have htext := text_eq_self fun hmem => h.up (List.mem_of_mem_take (i := n) hmem)
    simp only [State.underway, Service.unwritten, hserv, htext, List.length_nil,
      List.length_drop, List.length_take]
    omega
  | @write n buffer rest hserv hpos hn =>
    refine h.serves id ?_
    simp only [State.underway, Service.unwritten, hserv, List.length_append, List.length_drop,
      List.length_take]
    omega
  | @written buffer hserv =>
    refine h.serves id ?_
    simp only [State.underway, Service.unwritten, hserv]

/-- What the client has still to send goes through the server byte by byte.
This is one schedule among many, chosen so that all of it is echoed before the
client goes on. -/
theorem echoed {w : List UInt8} (hw : 0 ∉ w) {buffer : Buffer}
    (hs : (runs lines).Reachable s) (hc : s.client = .send w) (hup : s.up = [])
    (hserv : s.service = .read buffer) : ∃ buffer', (runs lines).Reachable
      { s with client := .send [], service := .read buffer', down := s.down ++ w } := by
  induction w generalizing s buffer with
  | nil =>
    refine ⟨buffer, ?_⟩
    rw [List.append_nil, ← hc, ← hserv]
    exact hs
  | cons c w ih =>
    have hc0 : 0 ∉ [c] := fun h => hw (by simpa using Or.inl (List.mem_singleton.1 h))
    have h₁ := hs.next (step_send hc (n := 1) (by omega) (by simp))
    obtain ⟨buffer₂, hread⟩ := step_read (s := { s with client := .send w, up := s.up ++ [c] })
      (n := 1) hserv (by omega) (by simp) (by decide)
    have h₂ := h₁.next hread
    rw [hup] at h₂
    simp only [List.nil_append, List.drop_one, List.tail_cons, List.take_succ_cons,
      List.take_zero, text_eq_self hc0] at h₂
    have h₃ := h₂.next (step_write (n := 1) rfl (by omega) (by simp))
    have h₄ := h₃.next (step_written rfl)
    obtain ⟨buffer', h⟩ := ih (fun h => hw (.tail c h)) h₄ rfl rfl rfl
    refine ⟨buffer', ?_⟩
    simpa [hup] using h

/-- **The client starves where its lines do not feed it:** every line is echoed
at once, and every `recv` takes as much as it can.  By induction on the
lines. -/
theorem standstill_of_fedBy {rest : List (List UInt8)} {buffer : Buffer}
    (hzero : ∀ line ∈ rest, 0 ∉ line) (hs : (runs lines).Reachable s)
    (hc : s.client = .getline) (hl : s.lines = rest) (hup : s.up = [])
    (hserv : s.service = .read buffer)
    (hfed : fedBy s.down.length (rest.map List.length) = false) :
    ∃ s', (runs lines).Reachable s' ∧ Standstill s' := by
  induction rest generalizing s buffer with
  | nil => cases hfed
  | cons line rest ih =>
    have h₁ := hs.next (step_getline hc hl)
    by_cases hdry : s.down.length + line.length = 0
    · refine standstill_of_dry h₁ trivial ?_
      simp only [State.underway, Client.unsent, Service.unwritten, hserv, hup, List.length_nil]
      omega
    · obtain ⟨buffer₂, h₂⟩ := echoed (hzero line (.head _)) h₁ rfl hup hserv
      have h₃ := h₂.next (step_sent rfl)
      have hlen : (s.down ++ line).length = s.down.length + line.length := List.length_append
      have h₄ := h₃.next (step_recv (n := min (s.down ++ line).length (recvSize - 1)) rfl
        (by rw [hlen]; have : recvSize = 1024 := rfl; omega) (Nat.min_le_left _ _)
        (Nat.min_le_right _ _))
      refine ih (fun l hmem => hzero l (.tail _ hmem)) h₄ rfl rfl hup rfl ?_
      simp only [List.map_cons, fedBy, Bool.and_eq_false_iff, decide_eq_false_iff_not] at hfed
      rcases hfed with hfed | hfed
      · omega
      · have hleft : (s.down ++ line).length - min (s.down ++ line).length (recvSize - 1) =
            s.down.length + line.length - (recvSize - 1) := by omega
        rw [List.length_drop, hleft]
        exact hfed

/-- **Lines without zero bytes** lead to no standstill if and only if their
lengths feed the client: `fedBy` follows how many bytes of the echoes are left
at least. -/
theorem starved_iff (hzero : ∀ line ∈ lines, 0 ∉ line) :
    (∀ s, (runs lines).Reachable s → ¬ Standstill s) ↔
      fedBy 0 (lines.map List.length) = true := by
  constructor
  · intro h
    by_contra hfed
    obtain ⟨buffer⟩ : Nonempty Buffer := ⟨⟨List.replicate serviceSize 0, List.length_replicate⟩⟩
    have hinit : (runs lines).Reachable ⟨lines, .getline, [], .read buffer, []⟩ :=
      .init ⟨buffer, rfl⟩
    obtain ⟨s, hs, hstill⟩ :=
      standstill_of_fedBy hzero hinit rfl rfl rfl rfl (by simpa using hfed)
    exact h s hs hstill
  · intro hfed s hs hstill
    have hfeeding : Feeding s := by
      refine hs.invariant (I := Feeding) ?_ ?_
      · rintro _ ⟨buffer, rfl⟩
        exact ⟨hzero, List.not_mem_nil, List.not_mem_nil, fun _ => hfed, fun hw => hw.elim⟩
      · rintro s s' - h ⟨a, -, hstep⟩
        exact h.step (steps hstep)
    obtain ⟨hw, h0⟩ := underway_standstill hstill
    have hpos := (hfeeding.waits hw).1
    omega

/-- **When client and server never wait for each other.**  In every run whose
steps are fed nobody stands still, whatever lines are typed and however the
streams are cut.  This is exact: for every sequence of lines the standstill is
out of reach if and only if every step that can be made is fed.  For lines
without zero bytes it is so if and only if their lengths feed the client. -/
theorem nobody_starves (lines : List (List UInt8)) :
    (∀ s, (sys fed lines).Reachable s → ¬ Standstill s) ∧
      ((∀ s, (runs lines).Reachable s → ¬ Standstill s) ↔
        ∀ s a s', (runs lines).Reachable s → s.step a = some s' → fed s a = true) ∧
      ((∀ line ∈ lines, 0 ∉ line) →
        ((∀ s, (runs lines).Reachable s → ¬ Standstill s) ↔
          fedBy 0 (lines.map List.length) = true)) :=
  ⟨fun _ hs => not_standstill hs, not_standstill_iff lines, starved_iff⟩

/-- One line of two bytes. -/
theorem nobody_starves_hi :
    ∀ s, (runs [[104, 105]]).Reachable s → ¬ Standstill s := by
  have hzero : ∀ line ∈ [[104, 105]], (0 : UInt8) ∉ line := by
    simp
  exact ((nobody_starves [[104, 105]]).2.2 hzero).2 (by decide)

/-- **An empty line stops both programs:** nothing is sent, and the client
waits for the echo. -/
theorem standstill_empty : ∃ s, (runs [[]]).Reachable s ∧ Standstill s := by
  obtain ⟨buffer⟩ : Nonempty Buffer := ⟨⟨List.replicate serviceSize 0, List.length_replicate⟩⟩
  have hs : (runs [[]]).Reachable ⟨[[]], .getline, [], .read buffer, []⟩ :=
    .init ⟨buffer, rfl⟩
  exact standstill_of_dry (hs.next (step_getline rfl rfl)) trivial rfl

end steps

/-- After a line of 2000 bytes the client has an echo left for an empty line,
but not for two. -/
example : fedBy 0 [2000, 0, 3] = true ∧ fedBy 0 [2000, 0, 0] = false := by decide

end TcpClient
end OSNetWorkCode
