/-
# The echo pipeline conserves the stream

A `History` carries beside a state what has happened to the bytes: the lines
given to `send`, the bytes `send` has moved, those `service` has read and not
written, and the texts the client has displayed.  Neither program counts
anything: the client displays the string it finds in a buffer of 1024 bytes
that is never cleared, and `service` writes the string it finds in its own.

For lines without zero bytes no byte is lost, repeated or moved on the way
(`Conserved`): what was displayed, what comes down, what `service` holds and
what goes up is what was sent, whatever pieces the kernel makes of it.
-/

import OSNetWorkCode.TcpClient.Model

namespace OSNetWorkCode
namespace TcpClient

open CString TcpServer

/-- `char buffer[RECV_SIZE]`. -/
def RecvBuffer := { mem : List UInt8 // mem.length = recvSize }

/-- What is displayed after `buffer[s] = 0`: `stack` is what the array held
before the `recv`. -/
def shown (stack : RecvBuffer) (bytes : List UInt8) : List UInt8 :=
  text ((blit bytes stack.1).set bytes.length 0)

/-- A state, and what has become of the bytes so far. -/
structure History where
  state : State
  /-- The lines given to `send`. -/
  taken : List (List UInt8)
  /-- The bytes that `send` has moved. -/
  sent : List UInt8
  /-- The bytes that `service` has read and not written. -/
  held : List UInt8
  /-- The texts displayed. -/
  displayed : List (List UInt8)

/-- The history after an action that leads to `s`. -/
def History.after (h : History) (stack : RecvBuffer) (s : State) : Action → History
  | .getline => { h with state := s, taken := h.taken ++ h.state.lines.take 1 }
  | .send n => { h with state := s, sent := h.sent ++ h.state.client.unsent.take n }
  | .recv n =>
    { h with state := s, displayed := h.displayed ++ [shown stack (h.state.down.take n)] }
  | .read n => { h with state := s, held := h.held ++ h.state.up.take n }
  | .write n => { h with state := s, held := h.held.drop n }
  | .sent | .written => { h with state := s }

/-- All runs with their histories. -/
def histories (lines : List (List UInt8)) : System History where
  init h := Init lines h.state ∧ h = ⟨h.state, [], [], [], []⟩
  step h h' := ∃ a s stack, h.state.step a = some s ∧ h' = h.after stack s a

/-- The stream is conserved. -/
structure Conserved (h : History) : Prop where
  /-- What was displayed, what comes down, what `service` holds and what goes up is what was
  sent. -/
  stream : h.displayed.flatten ++ h.state.down ++ h.held ++ h.state.up = h.sent
  /-- With what `send` has still to move these are the lines. -/
  typed : h.sent ++ h.state.client.unsent = h.taken.flatten

/-- The invariant: the stream is conserved, and `service` is going to write
what it holds. -/
structure Inv (lines : List (List UInt8)) (h : History) : Prop extends Conserved h where
  all : h.taken ++ h.state.lines = lines
  held : h.held = h.state.service.unwritten

/-- A client displays all of what it has received, if there is no zero byte in
it: the terminator hides what the array held before. -/
theorem shown_eq (stack : RecvBuffer) {bytes : List UInt8} (h0 : 0 ∉ bytes)
    (hlen : bytes.length ≤ recvSize - 1) : shown stack bytes = bytes := by
  have hsize : recvSize = 1024 := rfl
  have hlt : bytes.length < stack.1.length := by
    rw [stack.2]
    omega
  rw [shown, text_terminate hlt, text_eq_self h0]

section inv

variable {lines : List (List UInt8)} {h : History}

/-- Every byte under way is a byte of the lines, so that no zero byte turns up
where none was typed. -/
theorem Inv.mem_lines (hi : Inv lines h) {b : UInt8} (hb : b ∈ h.state.up ∨ b ∈ h.state.down) :
    ∃ line ∈ lines, b ∈ line := by
  have hsent : b ∈ h.sent := by
    rw [← hi.stream]
    rcases hb with hup | hdown
    · exact List.mem_append_right _ hup
    · exact List.mem_append_left _ (List.mem_append_left _ (List.mem_append_right _ hdown))
  have htaken : b ∈ h.taken.flatten := by
    rw [← hi.typed]
    exact List.mem_append_left _ hsent
  obtain ⟨line, hline, hb'⟩ := List.mem_flatten.1 htaken
  exact ⟨line, by rw [← hi.all]; exact List.mem_append_left _ hline, hb'⟩

/-- **Every step conserves the stream.**  Where bytes are moved they go from
one part of it to the next, and the order of the parts is the order of the
stream. -/
theorem Inv.step (h0 : ∀ line ∈ lines, 0 ∉ line) (hi : Inv lines h) {a : Action} {s : State}
    (stack : RecvBuffer) (hs : h.state.step a = some s) : Inv lines (h.after stack s a) := by
  obtain ⟨⟨hstream, htyped⟩, hall, hheld⟩ := hi
  have hnul : ∀ b, b ∈ h.state.up ∨ b ∈ h.state.down → b ≠ 0 := by
    rintro b hb rfl
    obtain ⟨line, hline, hmem⟩ := Inv.mem_lines ⟨⟨hstream, htyped⟩, hall, hheld⟩ hb
    exact h0 line hline hmem
  cases steps hs with
  | @getline line rest hc hl =>
    rw [hc] at htyped
    rw [hl] at hall
    refine ⟨⟨hstream, ?_⟩, ?_, hheld⟩
    · simp only [History.after, Client.unsent, hl, List.take_succ_cons, List.take_zero,
        List.flatten_append, ← htyped, List.append_nil, List.flatten_cons, List.flatten_nil]
    · simpa [History.after, hl] using hall
  | @send n rest hc hpos hn =>
    rw [hc] at htyped
    refine ⟨⟨?_, ?_⟩, hall, hheld⟩
    · simp only [History.after, hc, Client.unsent]
      rw [← hstream, ← List.append_assoc]
    · simp only [History.after, hc, Client.unsent]
      rw [List.append_assoc, List.take_append_drop]
      exact htyped
  | sent hc =>
    rw [hc] at htyped
    exact ⟨⟨hstream, htyped⟩, hall, hheld⟩
  | @recv n hc hpos hn hbuf =>
    rw [hc] at htyped
    have hshown : shown stack (h.state.down.take n) = h.state.down.take n := by
      refine shown_eq stack (fun hmem => ?_) ?_
      · exact hnul 0 (.inr (List.mem_of_mem_take hmem)) rfl
      · rw [List.length_take]
        omega
    refine ⟨⟨?_, htyped⟩, hall, hheld⟩
    simp only [History.after, hshown, List.flatten_append, List.flatten_singleton]
    rw [← hstream, List.append_assoc h.displayed.flatten, List.take_append_drop]
  | @read n buffer buffer' hr hpos hn hbuf =>
    have htext : text (h.state.up.take n) = h.state.up.take n :=
      text_eq_self fun hmem => hnul 0 (.inl (List.mem_of_mem_take hmem)) rfl
    have hnone : h.held = [] := by rw [hheld, hr]; rfl
    refine ⟨⟨?_, htyped⟩, hall, ?_⟩
    · simp only [History.after]
      rw [← hstream, ← List.append_assoc, List.append_assoc _ (h.state.up.take n),
        List.take_append_drop]
    · simp only [History.after, Service.unwritten, htext, hnone, List.nil_append]
  | @write n buffer rest hr hpos hn =>
    have hrest : h.held = rest := by rw [hheld, hr]; rfl
    refine ⟨⟨?_, htyped⟩, hall, ?_⟩
    · simp only [History.after, hrest]
      rw [← hstream, hrest, ← List.append_assoc, List.append_assoc _ (rest.take n),
        List.take_append_drop]
    · simp only [History.after, Service.unwritten, hrest]
  | written hr =>
    rw [hr] at hheld
    exact ⟨⟨hstream, htyped⟩, hall, hheld⟩

/-- **The stream is conserved in every run,** by induction along it: each step
moves bytes from one part of the way to the next. -/
theorem inv (h0 : ∀ line ∈ lines, 0 ∉ line) (hr : (histories lines).Reachable h) :
    Inv lines h := by
  refine hr.invariant (I := Inv lines) ?_ ?_
  · rintro h ⟨⟨buffer, hs⟩, hh⟩
    rw [hh, hs]
    exact ⟨⟨rfl, rfl⟩, rfl, rfl⟩
  · rintro h h' - hi ⟨a, s, stack, hs, rfl⟩
    exact hi.step h0 stack hs

/-- A history goes on with any step, whatever the stack holds. -/
theorem next {lines : List (List UInt8)} {h : History} (hr : (histories lines).Reachable h)
    {a : Action} {s : State} (stack : RecvBuffer) (hs : h.state.step a = some s) :
    (histories lines).Reachable (h.after stack s a) :=
  .step hr ⟨a, s, stack, hs, rfl⟩

/-- The state of a history after a step is the state after the step. -/
theorem History.after_state (h : History) (stack : RecvBuffer) (s : State) (a : Action) :
    (h.after stack s a).state = s := by
  cases a <;> rfl

/-- **Every run has a history.**  So what is proved of histories is said of all
runs, and the records add nothing to what the programs can do. -/
theorem exists_history {s : State} (hs : (runs lines).Reachable s) :
    ∃ h, (histories lines).Reachable h ∧ h.state = s := by
  obtain ⟨stack⟩ : Nonempty RecvBuffer := ⟨⟨List.replicate recvSize 0, List.length_replicate⟩⟩
  induction hs with
  | @init s hinit => exact ⟨⟨s, [], [], [], []⟩, .init ⟨hinit, rfl⟩, rfl⟩
  | step _ hstep ih =>
    obtain ⟨h, hr, rfl⟩ := ih
    obtain ⟨a, -, hs⟩ := hstep
    exact ⟨_, next hr stack hs, h.after_state stack _ a⟩

/-- **The echo pipeline conserves the stream.**  Every run has a history, and
for any lines without zero bytes and any fragmentation, at every point of it:
the texts displayed, the bytes on their way to the client, those that `service`
has read and not written and those on their way to the server are, in this
order, the bytes sent; and these are the lines given to `send` up to what it
has still to move.  So what is displayed is always an initial part of the
lines. -/
theorem stream_conserved (lines : List (List UInt8)) (h0 : ∀ line ∈ lines, 0 ∉ line) :
    (∀ s, (runs lines).Reachable s → ∃ h, (histories lines).Reachable h ∧ h.state = s) ∧
      ∀ h, (histories lines).Reachable h → Conserved h ∧ h.taken <+: lines ∧
        (h.state.client.unsent = [] →
          h.displayed.flatten ++ h.state.down ++ h.held ++ h.state.up = h.taken.flatten) ∧
        h.displayed.flatten <+: lines.flatten := by
  refine ⟨fun s hs => exists_history hs, fun h hr => ?_⟩
  have hi := inv h0 hr
  refine ⟨hi.toConserved, ⟨_, hi.all⟩, fun hsent => ?_, ?_⟩
  · rw [hi.stream, ← hi.typed, hsent, List.append_nil]
  · rw [← hi.all, List.flatten_append, ← hi.typed, ← hi.stream]
    simp only [List.append_assoc]
    exact List.prefix_append ..

end inv

/-- `"hi"` is sent, and `service` has read it: the two bytes are held by the
server, between its read and its write. -/
theorem stream_conserved_hi :
    ∃ h, (histories [[104, 105]]).Reachable h ∧ h.held = [104, 105] ∧ Conserved h := by
  have h0 : ∀ line ∈ [[104, 105]], (0 : UInt8) ∉ line := by simp
  obtain ⟨buffer⟩ : Nonempty Buffer := ⟨⟨List.replicate serviceSize 0, List.length_replicate⟩⟩
  obtain ⟨stack⟩ : Nonempty RecvBuffer := ⟨⟨List.replicate recvSize 0, List.length_replicate⟩⟩
  have h₀ : (histories [[104, 105]]).Reachable
      ⟨⟨[[104, 105]], .getline, [], .read buffer, []⟩, [], [], [], []⟩ :=
    .init ⟨⟨buffer, rfl⟩, rfl⟩
  have h₁ := next h₀ stack (step_getline rfl rfl)
  have h₂ := next h₁ stack (step_send (n := 2) rfl (by decide) (by decide))
  obtain ⟨buffer', hread⟩ := step_read (s := ⟨[], .send [], [104, 105], .read buffer, []⟩) (n := 2)
    rfl (by decide) (Nat.le_refl 2) (by decide)
  have h₃ := next h₂ stack hread
  exact ⟨_, h₃, rfl, ((stream_conserved _ h0).2 _ h₃).1⟩

end TcpClient
end OSNetWorkCode
