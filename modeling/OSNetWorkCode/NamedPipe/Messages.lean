/-
# What the readers print

The readers take the bytes that the client wrote, in order, nothing lost and
nothing repeated; each of the pieces they take is printed once, by the reader
that took it (`accounted`).  But a piece is a line only by chance: two lines
written before a read are one message (`xy_merged`).

Where the client writes in time, the unread lines are of full length but the
last, so that a read takes exactly the first of them (`ordered`): then the
messages are the lines, each printed once and by one reader.
-/

import OSNetWorkCode.NamedPipe.Model
import Mathlib.Data.List.Perm.Basic

namespace OSNetWorkCode
namespace NamedPipe

open CString

section messages

variable {R : Type*} [DecidableEq R] {lines : List Line} {s s' : State R} {a : Action R}

/-- The lines of typed text as they are written. -/
def contents (lines : List Line) : List (List UInt8) := lines.map Line.bytes

/-- **Nothing is lost:** what was taken and what is still in the FIFO are the
lines written, each piece taken is of a length that fits the buffer, and each
reader prints every piece it takes once. -/
structure Accounted (lines : List Line) (s : State R) : Prop where
  bytes : ∃ written, lines = written ++ s.lines ∧
    (contents written).flatten = (s.taken.map Prod.snd).flatten ++ s.fifo
  piece : ∀ p ∈ s.taken, p.2 ≠ [] ∧ p.2.length ≤ size - 1
  once : ∀ r message, s.printed.count (r, message) + (s.readers r).pending message =
    s.taken.count (r, message)

/-- The bytes in the FIFO are bytes of lines, so that none of them is zero.
Hence a piece is printed as it was taken. -/
theorem Accounted.zero (h : Accounted lines s) : 0 ∉ s.fifo := by
  obtain ⟨written, -, hbytes⟩ := h.bytes
  intro h0
  have hmem : (0 : UInt8) ∈ (contents written).flatten := by
    rw [hbytes]
    exact List.mem_append_right _ h0
  obtain ⟨bytes, hmem, h0⟩ := List.mem_flatten.1 hmem
  obtain ⟨line, -, rfl⟩ := List.mem_map.1 hmem
  exact line.zero h0

/-- A record of one more piece. -/
theorem count_append_pair (record : List (R × List UInt8)) (r r' : R)
    (bytes message : List UInt8) : (record ++ [(r, bytes)]).count (r', message) =
      record.count (r', message) + if r' = r ∧ bytes = message then 1 else 0 := by
  rw [List.count_append, List.count_singleton]
  simp only [beq_iff_eq, Prod.mk.injEq, eq_comm (a := r)]

omit [DecidableEq R] in
/-- What the readers are about to print when one of them moves. -/
theorem pending_update [DecidableEq R] (readers : R → Reader) (r r' : R) (p : Reader)
    (message : List UInt8) : (Function.update readers r p r').pending message =
      if r' = r then p.pending message else (readers r').pending message := by
  by_cases hr : r' = r
  · rw [hr, Function.update_self, if_pos rfl]
  · rw [Function.update_of_ne hr, if_neg hr]

/-- A reader that takes a piece without zero bytes is about to print it.  The
account is balanced: one more is taken, and one more is pending. -/
theorem Accounted.read (h : Accounted lines s) {r : R} (hr : s.readers r = .read)
    {bytes : List UInt8} (h0 : 0 ∉ bytes) (r' : R) (message : List UInt8) :
    s.printed.count (r', message) +
      (Function.update s.readers r (.print (fill bytes)) r').pending message =
        (s.taken ++ [(r, bytes)]).count (r', message) := by
  rw [pending_update, count_append_pair, ← h.once r' message, Reader.pending, text_fill h0]
  by_cases hr' : r' = r
  · rw [if_pos hr', hr', hr]
    simp [Reader.pending]
  · simp [hr']

/-- A reader that prints is not about to print any more.  What it prints is the
piece, all of it. -/
theorem Accounted.print (h : Accounted lines s) {r : R} {buffer : List UInt8}
    (hr : s.readers r = .print buffer) (r' : R) (message : List UInt8) :
    (s.printed ++ [(r, text buffer)]).count (r', message) +
      (Function.update s.readers r .read r').pending message =
        s.taken.count (r', message) := by
  rw [pending_update, count_append_pair, ← h.once r' message]
  by_cases hr' : r' = r
  · rw [if_pos hr', hr', hr]
    simp [Reader.pending]
  · simp [hr']

/-- **Every step keeps the account.**  A write adds to the FIFO, and a read
moves a piece from it to the record. -/
theorem Accounted.step (h : Accounted lines s) (hstep : Steps s a s') : Accounted lines s' := by
  have ⟨⟨written, hlines, hbytes⟩, hpiece, honce⟩ := h
  cases hstep with
  | @write line rest hw hl =>
    refine ⟨⟨written ++ [line], ?_, ?_⟩, hpiece, honce⟩
    · rw [hlines, hl, List.append_assoc]
      rfl
    · rw [contents, List.map_append, List.flatten_append, ← contents, hbytes, List.append_assoc]
      simp
  | kill hw => exact ⟨⟨written, hlines, hbytes⟩, hpiece, honce⟩
  | @read r hr hf =>
    have h0 : 0 ∉ s.fifo.take (size - 1) := fun hmem => h.zero (List.mem_of_mem_take hmem)
    refine ⟨⟨written, hlines, ?_⟩, fun p hp => ?_, h.read hr h0⟩
    · rw [hbytes, List.map_append, List.flatten_append, List.append_assoc]
      simp
    · rcases List.mem_append.1 hp with hp | hp
      · exact hpiece p hp
      · rw [List.mem_singleton.1 hp]
        refine ⟨fun hnil => hf ?_, ?_⟩
        · exact (List.take_eq_nil_iff.1 hnil).resolve_left (by decide)
        · rw [List.length_take]
          exact Nat.min_le_left _ _
  | @eof r hr hf hw =>
    refine ⟨⟨written, hlines, hbytes⟩, hpiece, fun r' message => ?_⟩
    rw [State.put_taken, ← honce r' message, State.put_readers, pending_update]
    by_cases hr' : r' = r
    · rw [if_pos hr', hr', hr]
      rfl
    · rw [if_neg hr']
      rfl
  | @print r buffer hr => exact ⟨⟨written, hlines, hbytes⟩, hpiece, h.print hr⟩

/-- **The account is kept in every run,** whatever the readers do and in
whatever order. -/
theorem accounted {ok : State R → Action R → Bool} (hs : (sys ok lines).Reachable s) :
    Accounted lines s := by
  refine hs.invariant (I := Accounted lines) ?_ ?_
  · rintro _ rfl
    exact ⟨⟨[], rfl, rfl⟩, nofun, fun _ _ => rfl⟩
  · rintro s s' - h ⟨a, -, hstep⟩
    exact h.step (steps hstep)

/-! ### In time -/

/-- The pieces taken are the first lines, the FIFO holds the next ones, of full
length but for the last. -/
structure Ordered (lines : List Line) (s : State R) (seen unread : List Line) : Prop where
  lines : lines = seen ++ unread ++ s.lines
  taken : s.taken.map Prod.snd = contents seen
  fifo : s.fifo = (contents unread).flatten
  packed : Stream.Packed (size - 1) (contents unread)

/-- **A step in time keeps the order.**  The line that is written follows lines
of full length, so that a read will not take a part of it with the line
before. -/
theorem Ordered.step {seen unread : List Line} (h : Ordered lines s seen unread)
    (hok : inTime s a = true) (hstep : Steps s a s') :
    ∃ seen' unread', Ordered lines s' seen' unread' := by
  obtain ⟨hlines, htaken, hfifo, hpacked⟩ := h
  cases hstep with
  | @write line rest hw hl =>
    have hdvd : size - 1 ∣ (contents unread).flatten.length := by
      rw [← hfifo]
      exact Nat.dvd_of_mod_eq_zero (of_decide_eq_true hok)
    have hfull := hpacked.full (fun b hb => by
      obtain ⟨l, -, rfl⟩ := List.mem_map.1 hb
      exact ⟨l.ne_nil, l.fits⟩) hdvd
    have hcontents : contents (unread ++ [line]) = contents unread ++ [line.bytes] :=
      List.map_append
    refine ⟨seen, unread ++ [line], ?_, htaken, ?_, ?_⟩
    · rw [hlines, hl]
      simp
    · rw [hcontents, List.flatten_append, ← hfifo]
      simp
    · rw [hcontents]
      exact Stream.packed_append hfull line.bytes
  | kill hw => exact ⟨seen, unread, hlines, htaken, hfifo, hpacked⟩
  | @read r hr hf =>
    rcases unread with _ | ⟨line, unread⟩
    · exact absurd hfifo hf
    · refine ⟨seen ++ [line], unread, ?_, ?_, ?_, hpacked.2⟩
      · rw [hlines, State.put_lines]
        simp
      · have htake : s.fifo.take (size - 1) = line.bytes := by
          rw [hfifo]
          exact hpacked.take line.fits
        rw [List.map_append, htaken, contents, contents, List.map_append, htake]
        rfl
      · show s.fifo.drop (size - 1) = _
        rw [hfifo]
        exact hpacked.drop line.fits
  | eof hr hf hw => exact ⟨seen, unread, hlines, htaken, hfifo, hpacked⟩
  | print hr => exact ⟨seen, unread, hlines, htaken, hfifo, hpacked⟩

/-- **In time the pieces taken are lines,** and they are taken in the order in
which they were written. -/
theorem ordered (hs : (sys inTime lines).Reachable s) :
    ∃ seen unread, Ordered lines s seen unread := by
  refine hs.invariant (I := fun s => ∃ seen unread, Ordered lines s seen unread) ?_ ?_
  · rintro _ rfl
    exact ⟨[], [], rfl, rfl, rfl, trivial⟩
  · rintro s s' - ⟨seen, unread, h⟩ ⟨a, hok, hstep⟩
    exact h.step hok (steps hstep)

/-- **The messages are the lines:** each piece taken is a line, in order; each
message printed is a line; a reader prints each line it takes once; and when
all lines are typed and taken and no reader is about to print, the messages are
the lines, each as often as it was typed. -/
structure Reported (lines : List Line) (s : State R) : Prop where
  order : s.taken.map Prod.snd <+: contents lines
  message : ∀ p ∈ s.printed, p.2 ∈ contents lines
  once : ∀ r message, s.printed.count (r, message) + (s.readers r).pending message =
    s.taken.count (r, message)
  complete : s.lines = [] → s.fifo = [] → (∀ r buffer, s.readers r ≠ .print buffer) →
    (s.printed.map Prod.snd).Perm (contents lines)

/-- What is printed was taken. -/
theorem Accounted.taken (h : Accounted lines s) {p : R × List UInt8} (hp : p ∈ s.printed) :
    p ∈ s.taken := by
  have honce := h.once p.1 p.2
  have hpos := List.count_pos_iff.2 hp
  refine List.count_pos_iff.1 ?_
  rw [← honce]
  exact Nat.lt_of_lt_of_le hpos (Nat.le_add_right _ _)

/-- When no reader is about to print, everything taken is printed, in whatever
order the readers came to it. -/
theorem Accounted.all_printed (h : Accounted lines s)
    (hidle : ∀ r buffer, s.readers r ≠ .print buffer) : s.printed.Perm s.taken := by
  refine List.perm_iff_count.2 fun p => ?_
  have honce := h.once p.1 p.2
  have hnone : (s.readers p.1).pending p.2 = 0 := by
    cases hr : s.readers p.1 with
    | print buffer => exact absurd hr (hidle p.1 buffer)
    | read | done => rfl
  rwa [hnone, Nat.add_zero] at honce

/-- **In time the messages are the lines.**  The order says that what was taken
is the lines up to those still to come, and the account that each message taken
is printed once; the two together are the claim. -/
theorem reported_of_inTime (hs : (sys inTime lines).Reachable s) : Reported lines s := by
  obtain ⟨seen, unread, hlines, htaken, hfifo, -⟩ := ordered hs
  have haccount := accounted hs
  have hstart : s.taken.map Prod.snd <+: contents lines := by
    rw [htaken, hlines, List.append_assoc]
    exact ⟨contents (unread ++ s.lines), List.map_append.symm⟩
  refine ⟨hstart, fun p hp => ?_, haccount.once, fun hnil hempty hidle => ?_⟩
  · exact hstart.subset (List.mem_map_of_mem (haccount.taken hp))
  · have hunread : unread = [] := by
      rcases unread with _ | ⟨line, unread⟩
      · rfl
      · rw [hempty] at hfifo
        have hbytes := (List.append_eq_nil_iff.1 hfifo.symm).1
        exact absurd hbytes line.ne_nil
    have hall : s.taken.map Prod.snd = contents lines := by
      rw [htaken, hlines, hunread, hnil, List.append_nil, List.append_nil]
    rw [← hall]
    exact (haccount.all_printed hidle).map Prod.snd

end messages

/-- **What the readers report.**  For any lines, any readers and every
interleaving, the readers take the bytes written in order, and each piece is
printed once, by the reader that took it.  In every run in which the client
writes only while the number of unread bytes is a multiple of 127, the messages
are the lines, each printed once by one reader. -/
theorem lines_reported (R : Type*) [DecidableEq R] (lines : List Line) :
    (∀ s, (runs R lines).Reachable s → Accounted lines s) ∧
      ∀ s, (sys (R := R) inTime lines).Reachable s → Reported lines s :=
  ⟨fun _ hs => accounted hs, fun _ hs => reported_of_inTime hs⟩

/-- The lines `x` and `y`. -/
def xy : List Line :=
  [⟨[120], by decide, by decide, by decide⟩, ⟨[121], by decide, by decide, by decide⟩]

/-- Each is read before the next is written, by two of three readers. -/
theorem lines_reported_xy : ∃ s : State (Fin 3), (sys inTime xy).Reachable s ∧
    s.printed = [(0, [120]), (1, [121])] ∧ Reported xy s := by
  have h₀ : (sys inTime xy).Reachable (start xy : State (Fin 3)) := .init rfl
  have h₁ : (sys inTime xy).Reachable _ := .step h₀ ⟨.write, rfl, rfl⟩
  have h₂ : (sys inTime xy).Reachable _ := .step h₁ ⟨.read 0, rfl, rfl⟩
  have h₃ : (sys inTime xy).Reachable _ := .step h₂ ⟨.print 0, rfl, rfl⟩
  have h₄ : (sys inTime xy).Reachable _ := .step h₃ ⟨.write, rfl, rfl⟩
  have h₅ : (sys inTime xy).Reachable _ := .step h₄ ⟨.read 1, rfl, rfl⟩
  have h₆ : (sys inTime xy).Reachable _ := .step h₅ ⟨.print 1, rfl, rfl⟩
  exact ⟨_, h₆, rfl, (lines_reported (Fin 3) xy).2 _ h₆⟩

/-- **Two lines are one message** where both are written before a reader
reads. -/
theorem xy_merged : ∃ s : State (Fin 3), (runs (Fin 3) xy).Reachable s ∧
    s.printed = [(0, [120, 121])] ∧ [120, 121] ∉ contents xy := by
  have h₀ : (runs (Fin 3) xy).Reachable (start xy) := .init rfl
  have h₁ := h₀.next (a := .write) rfl
  have h₂ := h₁.next (a := .write) rfl
  have h₃ := h₂.next (a := .read 0) rfl
  have h₄ := h₃.next (a := .print 0) rfl
  exact ⟨_, h₄, rfl, by decide⟩

end NamedPipe
end OSNetWorkCode
