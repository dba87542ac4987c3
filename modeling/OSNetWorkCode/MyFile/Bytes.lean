/-
# When a `MyFILE` neither drops nor repeats bytes

A stream is in order when what the kernel has accepted, followed by what is in
the buffer, is what was said.  `fputs_` adds its message behind both
(`fputs_spec`).  But where it hands the buffer to `write`, `end` stays where it
is, so what was accepted is accepted again later; and `fflush_` empties the
buffer whatever `write` accepted of it (`fflush_spec`).  So a call keeps the
stream in order exactly when the newline path is not taken or `write` accepts
nothing there, and a flush accepts all (`keeps_iff`).

`in_order_iff` says the same of whole sequences of calls: the stream is in
order after every call if and only if each call meets its condition.
-/

import Mathlib.Data.List.Induction
import Mathlib.Data.List.TakeDrop
import OSNetWorkCode.MyFile.Model

namespace OSNetWorkCode
namespace MyFile

/-- What the kernel has accepted and what is in the buffer are what was said,
byte for byte and in this order. -/
def World.InOrder (w : World) (said : List UInt8) : Prop := w.kernel ++ w.fp.pending = said

/-- The message ends the buffer in a newline, and the descriptor is 1. -/
def World.Flushes (w : World) (message : Message) : Prop :=
  w.fp.fd = 1 ∧ (w.fp.pending ++ message.bytes).getLast? = some newline

/-- Whether a message is flushed at once can be computed. -/
instance (w : World) (message : Message) : Decidable (w.Flushes message) :=
  inferInstanceAs (Decidable (_ ∧ _))

/-- The call neither drops nor repeats anything: `fputs_` does not flush, or
the kernel accepts nothing; `fflush_` has nothing to flush, or the kernel
accepts all of it. -/
def Call.Keeps : Call → World → Prop
  | .fputs message r, w => w.Flushes message → r.amount = 0
  | .fflush r, w => w.fp.end_ ≤ r.amount

/-! ### One call -/

/-- The buffer ends inside the array. -/
def World.Sound (w : World) : Prop := w.fp.end_ < num

/-- As many bytes are in the buffer as `end` says, which is inside the
array. -/
theorem length_pending {w : World} (hs : w.Sound) : w.fp.pending.length = w.fp.end_ := by
  have hlen := w.fp.buffer.length_mem
  unfold World.Sound at hs
  rw [MyFILE.pending, List.length_take]
  omega

/-- **`strcpy` puts the message and its terminator behind what is in the
buffer.**  The bytes behind the terminator are whatever was there before. -/
theorem append_mem {fp : MyFILE} {message : Message} (h : fp.end_ + message.bytes.length < num) :
    ∃ fp' post, fp.append message = some fp' ∧ fp'.fd = fp.fd ∧
      fp'.end_ = fp.end_ + message.bytes.length ∧
      fp'.buffer.mem = fp.pending ++ message.bytes ++ 0 :: post := by
  have hfit : fp.end_ + (message.bytes ++ [0]).length ≤ num := by
    rw [List.length_append, List.length_singleton]
    omega
  obtain ⟨b, hb, -, hmem⟩ := Block.copy_eq (b := fp.buffer) hfit
  have hcut : b.mem = fp.pending ++ message.bytes ++
      0 :: fp.buffer.mem.drop (fp.end_ + (message.bytes ++ [0]).length) := by
    rw [hmem, MyFILE.pending]
    simp only [List.append_assoc, List.cons_append, List.nil_append]
  unfold MyFILE.append
  split
  · rename_i b' hb'
    obtain rfl := Option.some.inj (hb.symm.trans hb')
    exact ⟨_, _, rfl, rfl, rfl, hcut⟩
  · rename_i hnone
    rw [hb] at hnone
    cases hnone

/-- What is in the buffer then: the terminator is not counted by `end`, and the
next message is copied over it. -/
theorem append_spec {fp : MyFILE} {message : Message} (h : fp.end_ + message.bytes.length < num) :
    ∃ fp', fp.append message = some fp' ∧ fp'.fd = fp.fd ∧
      fp'.end_ = fp.end_ + message.bytes.length ∧ fp'.pending = fp.pending ++ message.bytes := by
  obtain ⟨fp', post, happend, hfd, hend, hmem⟩ := append_mem h
  have hlen : (fp.pending ++ message.bytes).length = fp'.end_ := by
    have hbuffer := fp.buffer.length_mem
    rw [hend, List.length_append, MyFILE.pending, List.length_take]
    omega
  refine ⟨fp', happend, hfd, hend, ?_⟩
  rw [MyFILE.pending, hmem]
  exact List.take_left' hlen

/-- `buffer[end-1]` is the last byte in the buffer; with none there it is a
byte of `fd`, which under descriptor 1 is no newline. -/
theorem load_last {fp : MyFILE} (hfd : fp.fd = 1) (hend : fp.end_ < num) :
    ∃ c, fp.buffer.load ((fp.end_ : ℤ) - 1) = some c ∧
      (c = newline ↔ fp.pending.getLast? = some newline) := by
  have hlen := fp.buffer.length_mem
  rcases List.eq_nil_or_concat fp.pending with hnil | ⟨pre, c, hcut⟩
  · have hzero : fp.end_ = 0 := by
      have hpos : (fp.buffer.mem.take fp.end_).length = 0 := by
        rw [← MyFILE.pending, hnil]
        rfl
      rw [List.length_take] at hpos
      have hnum : num = 1024 := rfl
      omega
    refine ⟨0, ?_, ?_⟩
    · rw [hzero]
      show fp.buffer.front[0]? = some 0
      rw [fp.layout, hfd]
      rfl
    · rw [hnil]
      decide
  · have hmem : fp.buffer.mem = pre ++ c :: fp.buffer.mem.drop fp.end_ := by
      have hsplit := List.take_append_drop fp.end_ fp.buffer.mem
      rw [← MyFILE.pending, hcut, List.concat_eq_append, List.append_assoc] at hsplit
      exact hsplit.symm
    have hpre : fp.end_ = pre.length + 1 := by
      have hcount : (fp.buffer.mem.take fp.end_).length = pre.length + 1 := by
        rw [← MyFILE.pending, hcut, List.length_concat]
      rw [List.length_take] at hcount
      omega
    refine ⟨c, ?_, ?_⟩
    · rw [hpre]
      push_cast
      rw [Int.add_sub_cancel]
      exact Block.load_eq hmem rfl
    · rw [hcut, List.concat_eq_append, List.getLast?_append]
      simp

/-- The flush of `fputs_` leaves the buffer as it is, `end` included.  That the
bytes stay is what has them accepted again later. -/
theorem flushLine_spec {w : World} {r : Written} (hs : w.Sound) :
    ∃ w', w.flushLine r = some w' ∧ w'.fp = w.fp ∧
      w'.kernel = if w.fp.fd = 1 ∧ w.fp.pending.getLast? = some newline then
        w.kernel ++ w.fp.pending.take r.amount else w.kernel := by
  unfold World.flushLine
  by_cases h1 : w.fp.fd = 1
  · obtain ⟨c, hload, hc⟩ := load_last h1 hs
    rw [if_neg (by rw [h1]; decide), if_pos h1, hload]
    by_cases hn : c = newline
    · exact ⟨w.write r, if_pos hn, rfl, by rw [if_pos ⟨h1, hc.1 hn⟩]; rfl⟩
    · exact ⟨w, if_neg hn, rfl, by rw [if_neg fun h => hn (hc.2 h.2)]⟩
  · refine ⟨w, ?_, rfl, by rw [if_neg fun h => h1 h.1]⟩
    rw [if_neg h1]
    split_ifs <;> rfl

/-- **`fputs_`** puts its message behind what is in the buffer, and leaves it
there even where it hands it to `write`. -/
theorem fputs_spec {w : World} {message : Message} {r : Written}
    (h : w.fp.end_ + message.bytes.length < num) :
    ∃ w', w.fputs message r = some w' ∧ w'.Sound ∧
      w'.fp.pending = w.fp.pending ++ message.bytes ∧
      w'.kernel = if w.Flushes message then w.kernel ++ w'.fp.pending.take r.amount
        else w.kernel := by
  obtain ⟨fp', happend, hfd, hend, hpending⟩ := append_spec h
  have hsound : World.Sound ⟨fp', w.kernel⟩ := by
    show fp'.end_ < num
    omega
  obtain ⟨w', hflush, hfp, hkernel⟩ := flushLine_spec (r := r) hsound
  refine ⟨w', ?_, ?_, ?_, ?_⟩
  · unfold World.fputs
    rw [happend]
    exact hflush
  · rw [World.Sound, hfp]
    exact hsound
  · rw [hfp, hpending]
  · have hsame : (fp'.fd = 1 ∧ fp'.pending.getLast? = some newline) ↔ w.Flushes message := by
      rw [hfd, hpending]
      rfl
    rw [hfp]
    exact hkernel.trans (if_congr hsame rfl rfl)

/-- **`fflush_`** empties the buffer, whatever the kernel accepted of it.  What
`write` did not take is neither in the file nor in the buffer then. -/
theorem fflush_spec {w : World} {r : Written} (hs : w.Sound) :
    (w.fflush r).Sound ∧ (w.fflush r).fp.pending = [] ∧
      (w.fflush r).kernel = w.kernel ++ w.fp.pending.take r.amount := by
  unfold World.fflush
  split_ifs with h
  · refine ⟨?_, rfl, rfl⟩
    show 0 < num
    decide
  · have hzero : w.fp.end_ = 0 := not_not.1 h
    have hnil : w.fp.pending = [] := by
      rw [MyFILE.pending, hzero]
      rfl
    rw [hnil, List.take_nil, List.append_nil]
    exact ⟨hs, rfl, rfl⟩

/-- A call whose message fits has a result, and leaves `end` inside the
array. -/
theorem run_spec {c : Call} {w : World} (hs : w.Sound) (hfit : c.Fits w) :
    ∃ w', c.run w = some w' ∧ w'.Sound := by
  cases c with
  | fputs message r =>
    obtain ⟨w', hrun, hsound, -⟩ := fputs_spec (r := r) hfit
    exact ⟨w', hrun, hsound⟩
  | fflush r => exact ⟨_, rfl, (fflush_spec hs).1⟩

/-- **Exactly which calls keep a stream in order.**  What a flush accepts goes
in front of what is still in the buffer, and what it does not accept is no
longer there. -/
theorem keeps_iff {c : Call} {w w' : World} {said : List UInt8} (hs : w.Sound) (hfit : c.Fits w)
    (hrun : c.run w = some w') (h : w.InOrder said) :
    w'.InOrder (said ++ c.says) ↔ c.Keeps w := by
  cases c with
  | fputs message r =>
    obtain ⟨w₁, hrun₁, -, hpending, hkernel⟩ := fputs_spec (r := r) hfit
    obtain rfl := Option.some.inj (hrun₁.symm.trans hrun)
    have hsaid : said ++ message.bytes = w.kernel ++ w₁.fp.pending := by
      rw [← h, hpending, List.append_assoc]
    unfold World.InOrder Call.says Call.Keeps
    rw [hsaid, hkernel]
    split_ifs with hf
    · -- the bytes accepted are in the buffer still
      have hne : w₁.fp.pending ≠ [] := by
        intro hnil
        obtain ⟨-, hlast⟩ := hf
        rw [← hpending, hnil] at hlast
        cases hlast
      rw [List.append_assoc, List.append_cancel_left_eq, List.append_left_eq_self,
        List.take_eq_nil_iff]
      constructor
      · intro h0 _
        exact h0.resolve_right hne
      · intro h0
        exact .inl (h0 hf)
    · exact ⟨fun _ hf' => absurd hf' hf, fun _ => rfl⟩
  | fflush r =>
    obtain rfl := Option.some.inj hrun
    obtain ⟨-, hpending, hkernel⟩ := fflush_spec (r := r) hs
    unfold World.InOrder Call.says Call.Keeps
    rw [hpending, hkernel, List.append_nil, List.append_nil, ← h, List.append_cancel_left_eq,
      List.take_eq_self_iff, length_pending hs]

/-! ### Sequences of calls -/

/-- The calls are made one after the other, the last one on what the others
have left. -/
theorem after_append (w : World) (calls : List Call) (c : Call) :
    w.after (calls ++ [c]) = (w.after calls).bind c.run := by
  simp only [World.after, List.foldlM_append, List.foldlM_cons, List.foldlM_nil]
  cases calls.foldlM (fun w c => c.run w) w with
  | none => rfl
  | some w' =>
    show (c.run w').bind some = c.run w'
    cases c.run w' <;> rfl

/-- What is said is what each call says, in order. -/
theorem said_append (calls : List Call) (c : Call) :
    said (calls ++ [c]) = said calls ++ c.says := by
  simp [said]

/-- Where every message fits, the calls before one have a result, and it fits
then. -/
theorem fits_at {before : List Call} {c : Call} {rest : List Call} {w : World} (hs : w.Sound)
    (hfit : Fits w (before ++ c :: rest)) :
    ∃ w', w.after before = some w' ∧ w'.Sound ∧ c.Fits w' := by
  induction before generalizing w with
  | nil => exact ⟨w, rfl, hs, hfit.1⟩
  | cons c₀ before ih =>
    obtain ⟨w₁, hrun, hs₁⟩ := run_spec hs hfit.1
    obtain ⟨w', hafter, hs', hc⟩ := ih hs₁ (hfit.2 w₁ hrun)
    refine ⟨w', ?_, hs', hc⟩
    show (c₀.run w).bind (fun w => w.after before) = some w'
    rw [hrun]
    exact hafter

/-- Each call meets its condition when its turn comes. -/
def AllKeep (w : World) (calls : List Call) : Prop :=
  ∀ before c rest w', calls = before ++ c :: rest → w.after before = some w' → c.Keeps w'

/-- The stream is in order after every call. -/
def AlwaysInOrder (w : World) (calls : List Call) : Prop :=
  ∀ before rest w', calls = before ++ rest → w.after before = some w' → w'.InOrder (said before)

/-- If each call meets its condition, the stream is in order all along.  The
induction adds a call at the end, and `keeps_iff` settles it. -/
theorem inOrder_of_allKeep {w : World} {calls : List Call} (hs : w.Sound) (h0 : w.InOrder [])
    (hfit : Fits w calls) (hkeep : AllKeep w calls) : AlwaysInOrder w calls := by
  intro before
  induction before using List.reverseRecOn with
  | nil =>
    intro rest w' _ hafter
    obtain rfl := Option.some.inj hafter
    exact h0
  | append_singleton before c ih =>
    intro rest w' hcalls hafter
    rw [List.append_assoc, List.singleton_append] at hcalls
    obtain ⟨w₁, hw₁, hs₁, hc⟩ := fits_at hs (hcalls ▸ hfit)
    rw [after_append, hw₁, Option.bind_some] at hafter
    rw [said_append]
    exact (keeps_iff hs₁ hc hafter (ih _ _ hcalls hw₁)).2 (hkeep _ _ _ _ hcalls hw₁)

/-- `fopen_` sets `end` to zero. -/
theorem sound_opened (fd : UInt32) : (World.opened fd).Sound := by
  show 0 < num
  decide

/-- Nothing has been said to a stream that was just opened. -/
theorem inOrder_opened (fd : UInt32) : (World.opened fd).InOrder [] := rfl

/-- **Exactly when a stream neither drops nor repeats bytes.**  For every
descriptor, every sequence of calls whose messages fit and every outcome of
each `write`: the calls have a result, and after every call what the kernel has
accepted and what is in the buffer are the messages passed to `fputs_` if and
only if each `fputs_` that flushes has nothing accepted and each `fflush_` has
all accepted that is in the buffer.  Then a last `fclose_` whose `write` is
complete leaves each message once. -/
theorem in_order_iff (fd : UInt32) (calls : List Call) (hfit : Fits (.opened fd) calls) :
    (∃ w, (World.opened fd).after calls = some w ∧ w.Sound) ∧
      (AlwaysInOrder (.opened fd) calls ↔ AllKeep (.opened fd) calls) ∧
      (AllKeep (.opened fd) calls → ∀ w r, (World.opened fd).after calls = some w →
        w.fp.end_ ≤ r.amount → w.fclose r = said calls) := by
  have hs := sound_opened fd
  have hresult : ∃ w, (World.opened fd).after calls = some w ∧ w.Sound := by
    rcases List.eq_nil_or_concat calls with rfl | ⟨before, c, hcut⟩
    · exact ⟨_, rfl, hs⟩
    · rw [List.concat_eq_append] at hcut
      obtain ⟨w₁, hw₁, hs₁, hc⟩ := fits_at hs (hcut ▸ hfit)
      obtain ⟨w', hrun, hs'⟩ := run_spec hs₁ hc
      refine ⟨w', ?_, hs'⟩
      rw [hcut, after_append, hw₁]
      exact hrun
  refine ⟨hresult, ⟨fun h before c rest w' hcalls hafter => ?_, inOrder_of_allKeep hs rfl hfit⟩,
    fun hkeep w r hafter hall => ?_⟩
  · obtain ⟨w₁, hw₁, hs₁, hc⟩ := fits_at hs (hcalls ▸ hfit)
    obtain rfl := Option.some.inj (hw₁.symm.trans hafter)
    obtain ⟨w₂, hrun, -⟩ := run_spec hs₁ hc
    refine (keeps_iff hs₁ hc hrun (h before _ w₁ hcalls hw₁)).1 ?_
    rw [← said_append]
    refine h (before ++ [c]) rest w₂ (by rw [hcalls]; simp) ?_
    rw [after_append, hw₁]
    exact hrun
  · obtain ⟨w', hw', hs'⟩ := hresult
    obtain rfl := Option.some.inj (hw'.symm.trans hafter)
    have horder := inOrder_of_allKeep hs (inOrder_opened fd) hfit hkeep calls [] w'
      (List.append_nil _).symm hw'
    have hflush := (keeps_iff (c := .fflush r) hs' trivial rfl horder).2 hall
    obtain ⟨-, hpending, -⟩ := fflush_spec (r := r) hs'
    unfold World.InOrder at hflush
    rw [hpending, List.append_nil, Call.says, List.append_nil] at hflush
    exact hflush

/-- `"hi\n"`. -/
def hiLine : Message := ⟨[104, 105, 10], by decide⟩

/-- `"hi"`. -/
def hi : Message := ⟨[104, 105], by decide⟩

/-- What a failed condition looks like: after the calls, the bytes accepted and
those in the buffer are not what was said. -/
theorem not_alwaysInOrder {fd : UInt32} {calls : List Call} {kernel pending : List UInt8}
    (h : ((World.opened fd).after calls).map (fun w => (w.kernel, w.fp.pending)) =
      some (kernel, pending)) (hne : kernel ++ pending ≠ said calls) :
    ¬ AlwaysInOrder (.opened fd) calls := by
  intro horder
  obtain ⟨w, hw, hpair⟩ := Option.map_eq_some_iff.1 h
  have hsaid := horder calls [] w (List.append_nil _).symm hw
  obtain ⟨rfl, rfl⟩ := Prod.mk.inj hpair
  exact hne hsaid

/-- **Bytes are repeated, and bytes are dropped.**  Under descriptor 1 a line
that the kernel has accepted is still in the buffer; under descriptor 3 a byte
that it has not accepted is not. -/
theorem repeats_and_drops :
    (Fits (.opened 1) [.fputs hiLine (.count 3)] ∧
      ((World.opened 1).after [.fputs hiLine (.count 3)]).map
        (fun w => (w.kernel, w.fp.pending)) = some ([104, 105, 10], [104, 105, 10]) ∧
      ¬ AlwaysInOrder (.opened 1) [.fputs hiLine (.count 3)]) ∧
    Fits (.opened 3) [.fputs hi .failed, .fflush (.count 1)] ∧
      ((World.opened 3).after [.fputs hi .failed, .fflush (.count 1)]).map
        (fun w => (w.kernel, w.fp.pending)) = some ([104], []) ∧
      ¬ AlwaysInOrder (.opened 3) [.fputs hi .failed, .fflush (.count 1)] := by
  refine ⟨⟨⟨?_, fun _ _ => trivial⟩, rfl, not_alwaysInOrder rfl (by decide)⟩,
    ⟨?_, fun _ _ => ⟨trivial, fun _ _ => trivial⟩⟩, rfl, not_alwaysInOrder rfl (by decide)⟩
  · show 0 + 3 < num
    decide
  · show 0 + 2 < num
    decide

/-- A line without a newline is not flushed, so that the flush behind it is its
first; it is complete, and a close has nothing left to do. -/
theorem in_order_iff_hi : AlwaysInOrder (.opened 1) [.fputs hi .failed, .fflush (.count 2)] := by
  have hfit : Fits (.opened 1) [.fputs hi .failed, .fflush (.count 2)] := by
    refine ⟨?_, fun _ _ => ⟨trivial, fun _ _ => trivial⟩⟩
    show 0 + 2 < num
    decide
  refine ((in_order_iff 1 _ hfit).2.1).2 fun before c rest w' hcalls hafter => ?_
  match before with
  | [] =>
    obtain ⟨rfl, -⟩ := List.cons.inj hcalls
    intro _
    rfl
  | [_] =>
    simp only [List.cons_append, List.nil_append, List.cons.injEq] at hcalls
    obtain ⟨rfl, rfl, -⟩ := hcalls
    obtain rfl := Option.some.inj hafter
    show 2 ≤ 2
    decide
  | _ :: _ :: _ => simp at hcalls

end MyFile
end OSNetWorkCode
