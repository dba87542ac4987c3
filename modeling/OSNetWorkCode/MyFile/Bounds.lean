/-
# Which bytes a `MyFILE` touches

Nobody compares a message with what is left of `buffer`: `strcpy` runs over its
end where the messages since the last `fflush_` and a terminator do not fit.
At the other end, descriptor 1 has `buffer[end-1]` looked at, which is no byte
of the buffer where nothing is in it; `fflush_` asks for that.

The bytes that a call reads or writes are listed by their addresses
(`Call.touches`).  `bounded_iff` says for which sequences of calls all of them
lie in the buffer.
-/

import OSNetWorkCode.MyFile.Bytes

namespace OSNetWorkCode
namespace MyFile

/-- The address is one of the buffer. -/
def InBuffer (a : ℤ) : Prop := 0 ≤ a ∧ a < num

/-- Whether an address is one of the buffer can be computed. -/
instance (a : ℤ) : Decidable (InBuffer a) := inferInstanceAs (Decidable (_ ∧ _))

/-- The addresses of `k` bytes from `a` on, as integers: the byte in front of
the buffer has one as well. -/
def stretch (a k : ℕ) : List ℤ := (List.range' a k).map Nat.cast

/-- What `printf("%s\n", fp->buffer)` reads: up to a terminator, if need be
behind the buffer. -/
def MyFILE.printed (fp : MyFILE) : List ℤ :=
  match fp.buffer.strlen 0 with
  | some len => stretch 0 (len + 1)
  | none => stretch 0 (num + 1)

/-- What the branches of `fputs_` on the descriptor read: under descriptor 1
the last byte, and where it is a newline all that is in the buffer, for
`write`. -/
def MyFILE.flushed (fp : MyFILE) : List ℤ :=
  if fp.fd = 1 then
    ((fp.end_ : ℤ) - 1) ::
      if fp.buffer.load ((fp.end_ : ℤ) - 1) = some newline then stretch 0 fp.end_ else []
  else []

/-- The bytes that a call reads or writes through `fp->buffer`.  Nothing is
said of what comes after a copy that does not fit. -/
def Call.touches : Call → World → List ℤ
  | .fputs message _, w =>
    stretch w.fp.end_ (message.bytes.length + 1) ++
      match w.fp.append message with
      | some fp => fp.printed ++ fp.flushed
      | none => []
  | .fflush _, w => if w.fp.end_ ≠ 0 then stretch 0 w.fp.end_ else []

/-- After `fputs_` the buffer ends in a terminator. -/
def Call.Terminated : Call → World → Prop
  | .fputs .., w => w.fp.buffer.load w.fp.end_ = some 0
  | .fflush _, _ => True

/-- A call that touches bytes of the buffer only, and leaves `end` in it. -/
structure Call.Stays (c : Call) (w w' : World) : Prop where
  touches : ∀ a ∈ c.touches w, InBuffer a
  sound : w'.Sound
  terminated : c.Terminated w'

/-- Each call stays within the buffer, up to the last. -/
def Bounded : World → List Call → Prop
  | _, [] => True
  | w, c :: calls => ∃ w', c.run w = some w' ∧ c.Stays w w' ∧ Bounded w' calls

/-- Each message fits, with its terminator, behind the messages since the last
`fflush_`, `level` bytes so far; under descriptor 1 they are not all empty. -/
def Roomy (fd : UInt32) : ℕ → List Call → Prop
  | _, [] => True
  | level, .fputs message _ :: calls =>
    (level + message.bytes.length < num ∧ (fd = 1 → level + message.bytes.length ≠ 0)) ∧
      Roomy fd (level + message.bytes.length) calls
  | _, .fflush _ :: calls => Roomy fd 0 calls

/-! ### Stretches of the buffer -/

/-- A stretch is an interval of addresses. -/
theorem mem_stretch {a k : ℕ} {x : ℤ} : x ∈ stretch a k ↔ (a : ℤ) ≤ x ∧ x < a + k := by
  unfold stretch
  rw [List.mem_map]
  constructor
  · rintro ⟨i, hi, rfl⟩
    rw [List.mem_range'_1] at hi
    omega
  · intro h
    refine ⟨x.toNat, ?_, by omega⟩
    rw [List.mem_range'_1]
    omega

/-- **A stretch that is not empty lies in the buffer** where its last byte
does.  For `strcpy` that byte is the terminator. -/
theorem stretch_inBuffer {a k : ℕ} : (∀ x ∈ stretch a (k + 1), InBuffer x) ↔ a + k < num := by
  constructor
  · intro h
    have hlast := h (a + k : ℕ) (mem_stretch.2 (by push_cast; omega))
    have hlt := hlast.2
    omega
  · intro h x hx
    have hbounds := mem_stretch.1 hx
    unfold InBuffer
    push_cast at hbounds
    omega

/-- So does one that ends where the buffer does or before, also an empty
one. -/
theorem stretch_le {k : ℕ} (h : k ≤ num) : ∀ x ∈ stretch 0 k, InBuffer x := by
  intro x hx
  have hbounds := mem_stretch.1 hx
  unfold InBuffer
  omega

/-! ### One call -/

/-- `level` bytes are in the buffer, none of them a terminator.  This is what
is known of a stream between two calls that stayed in the buffer. -/
structure Filled (fd : UInt32) (level : ℕ) (w : World) : Prop where
  fd : w.fp.fd = fd
  end_ : w.fp.end_ = level
  sound : level < num
  nulFree : 0 ∉ w.fp.pending

/-- The look at the last byte stays in the buffer where there is one.  `fputs_`
has no test that `end` is not zero. -/
theorem flushed_inBuffer {fp : MyFILE} (hend : fp.end_ < num) :
    (∀ a ∈ fp.flushed, InBuffer a) ↔ (fp.fd = 1 → fp.end_ ≠ 0) := by
  unfold MyFILE.flushed
  split_ifs with hfd hnewline
  · constructor
    · intro h _ hzero
      have hlast := (h _ List.mem_cons_self).1
      omega
    · intro h a ha
      have hpos := h hfd
      rcases List.mem_cons.1 ha with rfl | ha
      · unfold InBuffer
        omega
      · exact stretch_le hend.le a ha
  · constructor
    · intro h _ hzero
      have hlast := (h _ List.mem_cons_self).1
      omega
    · intro h a ha
      have hpos := h hfd
      rw [List.mem_singleton.1 ha]
      unfold InBuffer
      omega
  · exact ⟨fun _ h => absurd h hfd, fun _ a ha => absurd ha List.not_mem_nil⟩

/-- **A message that fits** lies behind the others then, with the only
terminator of the buffer up to `end` behind it.  So `printf` stops there. -/
theorem append_filled {fd : UInt32} {level : ℕ} {w : World} {message : Message}
    (h : Filled fd level w) (hfit : level + message.bytes.length < num) :
    ∃ fp, w.fp.append message = some fp ∧
      Filled fd (level + message.bytes.length) { w with fp := fp } ∧
      fp.printed = stretch 0 (level + message.bytes.length + 1) ∧
      fp.buffer.load fp.end_ = some 0 := by
  have hsound : w.Sound := by
    rw [World.Sound, h.end_]
    exact h.sound
  rw [← h.end_] at hfit ⊢
  obtain ⟨fp, post, happend, hfd, hend, hmem⟩ := append_mem hfit
  have hlen : (w.fp.pending ++ message.bytes).length = w.fp.end_ + message.bytes.length := by
    rw [List.length_append, length_pending hsound]
  have hnulFree : 0 ∉ w.fp.pending ++ message.bytes := by
    rw [List.mem_append]
    exact not_or.2 ⟨h.nulFree, message.nulFree⟩
  have hpending : fp.pending = w.fp.pending ++ message.bytes := by
    rw [MyFILE.pending, hmem, hend]
    exact List.take_left' hlen
  have hprinted : fp.printed = stretch 0 (w.fp.end_ + message.bytes.length + 1) := by
    have hstring : fp.buffer.mem = [] ++ (w.fp.pending ++ message.bytes ++ 0 :: post) := hmem
    have hstrlen : fp.buffer.strlen 0 = some _ := Block.strlen_eq hstring rfl hnulFree
    unfold MyFILE.printed
    rw [hstrlen, hlen]
  refine ⟨fp, happend, ⟨hfd.trans h.fd, hend, hfit, ?_⟩, hprinted, ?_⟩
  · rw [hpending]
    exact hnulFree
  · rw [hend, ← hlen]
    exact Block.load_eq hmem rfl

/-- **`fputs_` of a message that fits** stays within the buffer, but for its
look at the last byte of nothing.  All else it does is settled by
`append_filled`. -/
theorem fputs_stays {fd : UInt32} {level : ℕ} {w : World} {message : Message} (r : Written)
    (h : Filled fd level w) (hfit : level + message.bytes.length < num) :
    ∃ w', (Call.fputs message r).run w = some w' ∧
      Filled fd (level + message.bytes.length) w' ∧
      ((Call.fputs message r).Stays w w' ↔ (fd = 1 → level + message.bytes.length ≠ 0)) := by
  obtain ⟨fp, happend, hfilled, hprinted, hload⟩ := append_filled h hfit
  have hsound : World.Sound { w with fp := fp } := by
    rw [World.Sound, hfilled.end_]
    exact hfit
  obtain ⟨w', hflush, hfp, -⟩ := flushLine_spec (r := r) hsound
  have hrun : (Call.fputs message r).run w = some w' := by
    show w.fputs message r = some w'
    unfold World.fputs
    rw [happend]
    exact hflush
  have htouches : (Call.fputs message r).touches w =
      stretch w.fp.end_ (message.bytes.length + 1) ++ (fp.printed ++ fp.flushed) := by
    simp only [Call.touches, happend]
  have hflushed : (∀ a ∈ fp.flushed, InBuffer a) ↔
      (fd = 1 → level + message.bytes.length ≠ 0) := by
    rw [← hfilled.fd, ← hfilled.end_]
    exact flushed_inBuffer hsound
  refine ⟨w', hrun, ?_, ?_⟩
  · obtain ⟨hfd, hend, -, hnulFree⟩ := hfilled
    exact ⟨by rw [hfp]; exact hfd, by rw [hfp]; exact hend, hfit, by rw [hfp]; exact hnulFree⟩
  · rw [← hflushed]
    constructor
    · intro hstays a ha
      refine hstays.touches a ?_
      rw [htouches]
      exact List.mem_append_right _ (List.mem_append_right _ ha)
    · intro hin
      refine ⟨fun a ha => ?_, ?_, ?_⟩
      · rw [htouches, hprinted, h.end_] at ha
        rcases List.mem_append.1 ha with ha | ha
        · exact stretch_inBuffer.2 hfit a ha
        · rcases List.mem_append.1 ha with ha | ha
          · exact stretch_inBuffer.2 (by omega) a ha
          · exact hin a ha
      · rw [World.Sound, hfp]
        exact hsound
      · show w'.fp.buffer.load w'.fp.end_ = some 0
        rw [hfp]
        exact hload

/-- **`fputs_` of a message that does not fit** leaves the buffer: the
terminator at the latest is stored behind it. -/
theorem fputs_leaves {fd : UInt32} {level : ℕ} {w w' : World} {message : Message} {r : Written}
    (h : Filled fd level w) (hstays : (Call.fputs message r).Stays w w') :
    level + message.bytes.length < num := by
  rw [← h.end_]
  refine stretch_inBuffer.1 fun a ha => hstays.touches a ?_
  unfold Call.touches
  exact List.mem_append_left _ ha

/-- **`fflush_`** stays within the buffer, and empties it.  Its `write` reads
up to `end` only. -/
theorem fflush_stays {fd : UInt32} {level : ℕ} {w : World} (r : Written) (h : Filled fd level w) :
    (Call.fflush r).Stays w (w.fflush r) ∧ Filled fd 0 (w.fflush r) := by
  have hsound : w.Sound := by
    rw [World.Sound, h.end_]
    exact h.sound
  obtain ⟨hsound', hpending, -⟩ := fflush_spec (r := r) hsound
  refine ⟨⟨fun a ha => ?_, hsound', trivial⟩, ?_, ?_, by decide, ?_⟩
  · simp only [Call.touches] at ha
    split_ifs at ha with hend
    · exact stretch_le (le_of_lt hsound) a ha
    · exact absurd ha List.not_mem_nil
  · unfold World.fflush
    split_ifs <;> exact h.fd
  · rw [← length_pending hsound', hpending]
    rfl
  · rw [hpending]
    exact List.not_mem_nil

/-! ### Sequences of calls -/

/-- **A sequence of calls** stays within the buffer as long as the levels it
comes to leave room, by induction on the calls. -/
theorem bounded_of_filled {fd : UInt32} {level : ℕ} {w : World} {calls : List Call}
    (h : Filled fd level w) : Bounded w calls ↔ Roomy fd level calls := by
  induction calls generalizing level w with
  | nil => exact Iff.rfl
  | cons c calls ih =>
    cases c with
    | fputs message r =>
      unfold Bounded Roomy
      constructor
      · rintro ⟨w', hrun, hstays, hrest⟩
        have hfit := fputs_leaves h hstays
        obtain ⟨w₁, hrun₁, hfilled, hiff⟩ := fputs_stays r h hfit
        obtain rfl := Option.some.inj (hrun₁.symm.trans hrun)
        exact ⟨⟨hfit, hiff.1 hstays⟩, (ih hfilled).1 hrest⟩
      · rintro ⟨⟨hfit, hlast⟩, hrest⟩
        obtain ⟨w₁, hrun₁, hfilled, hiff⟩ := fputs_stays r h hfit
        exact ⟨w₁, hrun₁, hiff.2 hlast, (ih hfilled).2 hrest⟩
    | fflush r =>
      obtain ⟨hstays, hfilled⟩ := fflush_stays r h
      unfold Bounded Roomy
      rw [← ih hfilled]
      constructor
      · rintro ⟨w', hrun, -, hrest⟩
        obtain rfl : w.fflush r = w' := Option.some.inj hrun
        exact hrest
      · exact fun hrest => ⟨_, rfl, hstays, hrest⟩

/-- `fopen_` begins with nothing in the buffer. -/
theorem filled_opened (fd : UInt32) : Filled fd 0 (.opened fd) :=
  ⟨rfl, rfl, by decide, List.not_mem_nil⟩

/-- **Exactly when a `MyFILE` stays within its buffer.**  For every descriptor,
every sequence of calls and every outcome of each `write`: each call touches
bytes of the buffer only and leaves `end` in it, behind `fputs_` on a
terminator, if and only if each message fits behind those since the last
`fflush_`, which under descriptor 1 are not all empty. -/
theorem bounded_iff (fd : UInt32) (calls : List Call) :
    Bounded (.opened fd) calls ↔ Roomy fd 0 calls :=
  bounded_of_filled (filled_opened fd)

/-- A message as long as the buffer. -/
def long : Message where
  bytes := List.replicate num 97
  nulFree h := absurd (List.eq_of_mem_replicate h) (by decide)

/-- No message at all. -/
def empty : Message := ⟨[], List.not_mem_nil⟩

/-- **Both ends of the buffer are passed:** by a message as long as the buffer,
and under descriptor 1 by an empty message in front of which there is
nothing. -/
theorem passes_both_ends : ¬ Bounded (.opened 3) [.fputs long .failed] ∧
    ¬ Bounded (.opened 1) [.fputs empty .failed] := by
  constructor
  · rintro ⟨w', -, hstays, -⟩
    have hfit := fputs_leaves (filled_opened 3) hstays
    have hlen : long.bytes.length = num := List.length_replicate
    rw [hlen, Nat.zero_add] at hfit
    exact lt_irrefl _ hfit
  · rintro ⟨w', hrun, hstays, -⟩
    obtain ⟨w₁, hrun₁, -, hiff⟩ :=
      fputs_stays .failed (filled_opened 1) (show 0 + empty.bytes.length < num by decide)
    obtain rfl := Option.some.inj (hrun₁.symm.trans hrun)
    exact hiff.1 hstays rfl rfl

end MyFile
end OSNetWorkCode
