/-
# C strings in memory

A stretch of memory is the list of its bytes.  The string that starts at its
beginning is what lies before the first zero byte (`text`); `strlen` runs off
the memory where there is none.  `blit` stores bytes at the beginning of a
stretch, as `read` and `recvfrom` do, and `snprintf` a text with its
terminator, cut to what fits.
-/

import Mathlib.Data.List.TakeWhile
import Mathlib.Data.Nat.Notation

namespace OSNetWorkCode
namespace CString

/-- The string at the start of a stretch of memory. -/
def text (mem : List UInt8) : List UInt8 := mem.takeWhile (· ≠ 0)

/-- `strlen`: `none` where it would read past the memory given. -/
def strlen (mem : List UInt8) : Option ℕ := if 0 ∈ mem then some (text mem).length else none

/-- How many bytes at the start of `mem` satisfy `p`, as `strspn` and `strcspn`
count them: `none` where none follows that does not. -/
def span (p : UInt8 → Bool) (mem : List UInt8) : Option ℕ :=
  if (mem.takeWhile p).length < mem.length then some (mem.takeWhile p).length else none

/-- `bs` stored at the start of `mem`. -/
def blit (bs mem : List UInt8) : List UInt8 := bs ++ mem.drop bs.length

/-- `snprintf(mem, sizeof mem, "%s", s)`. -/
def snprintf (mem s : List UInt8) : List UInt8 :=
  blit (s.take (mem.length - 1) ++ [0]) mem

/-- A string ends at a terminator, or before it.  Nothing is asked of the bytes
in front: where they have a zero themselves, that zero ends the string. -/
theorem text_terminated (w rest : List UInt8) : text (w ++ 0 :: rest) = text w := by
  induction w with
  | nil => rfl
  | cons c w ih =>
    unfold text at ih ⊢
    by_cases hc : c = 0
    · rw [List.cons_append, List.takeWhile_cons_of_neg (by simp [hc]),
        List.takeWhile_cons_of_neg (by simp [hc])]
    · rw [List.cons_append, List.takeWhile_cons_of_pos (by simp [hc]),
        List.takeWhile_cons_of_pos (by simp [hc]), ih]

/-- The string is a beginning of the bytes it is read from.  What is lost of a
message by reading it as a string is lost at its end. -/
theorem text_initial (w : List UInt8) : text w <+: w := List.takeWhile_prefix _

/-- What `strlen` counts is the string: so many bytes from the start of the
memory are the text, and a write of so many bytes puts out no others. -/
theorem take_strlen {mem : List UInt8} {n : ℕ} (h : strlen mem = some n) :
    mem.take n = text mem := by
  unfold strlen at h
  split_ifs at h with h0
  obtain rfl := Option.some.inj h
  exact (List.prefix_iff_eq_take.1 (text_initial mem)).symm

/-- The string of bytes without a zero is all of them.  Where the bytes come
from a terminal or out of another string, reading them as a string loses
nothing. -/
theorem text_eq_self {bs : List UInt8} (h : 0 ∉ bs) : text bs = bs :=
  List.takeWhile_eq_self_iff.2 fun c hc => by
    have : c ≠ 0 := fun h0 => h (h0 ▸ hc)
    simpa using this

/-- **The string before a terminator.**  A text without a zero is read back
whole, whatever is left behind its terminator from before. -/
theorem text_append_zero {w : List UInt8} (hw : 0 ∉ w) (rest : List UInt8) :
    text (w ++ 0 :: rest) = w := (text_terminated w rest).trans (text_eq_self hw)

/-- Zeros behind some bytes end their string, or it has ended before.  There
may be none of them: then the end of the memory given is the end of the
string. -/
theorem text_append_zeros (w : List UInt8) (n : ℕ) : text (w ++ List.replicate n 0) = text w := by
  cases n with
  | zero => rw [List.replicate_zero, List.append_nil]
  | succ n => exact text_terminated w _

/-- So a text without a zero is read back whole from memory that was cleared
before. -/
theorem text_append_replicate {w : List UInt8} (hw : 0 ∉ w) (n : ℕ) :
    text (w ++ List.replicate n 0) = w := (text_append_zeros w n).trans (text_eq_self hw)

/-- `strlen` counts a text without a zero up to its terminator, and does not
look at the bytes behind. -/
theorem strlen_append_zero {w : List UInt8} (hw : 0 ∉ w) (rest : List UInt8) :
    strlen (w ++ 0 :: rest) = some w.length := by
  rw [strlen, if_pos (by simp), text_append_zero hw]

/-- **What is counted ends at the first byte that does not satisfy `p`.**  The
byte is there, so the count does not run past the memory. -/
theorem span_append {p : UInt8 → Bool} {w : List UInt8} (hw : ∀ c ∈ w, p c = true) {c : UInt8}
    (hc : p c = false) (rest : List UInt8) : span p (w ++ c :: rest) = some w.length := by
  have htake : (w ++ c :: rest).takeWhile p = w := by
    rw [List.takeWhile_append_of_pos hw, List.takeWhile_cons_of_neg (by rw [hc]; decide),
      List.append_nil]
  unfold span
  rw [htake, if_pos]
  rw [List.length_append, List.length_cons]
  omega

/-- Bytes stored where there is room for them leave the memory as large as it
was. -/
theorem length_blit {bs mem : List UInt8} (h : bs.length ≤ mem.length) :
    (blit bs mem).length = mem.length := by
  rw [blit, List.length_append, List.length_drop]
  omega

/-- **A terminator put right behind what was stored hides what was there
before.**  It needs room for one byte more than was stored: readers that ask
for one byte less than their buffer has rely on it. -/
theorem text_terminate {bs mem : List UInt8} (h : bs.length < mem.length) :
    text ((blit bs mem).set bs.length 0) = text bs := by
  rw [blit, List.drop_eq_getElem_cons h, List.set_append_right _ _ (Nat.le_refl _), Nat.sub_self,
    List.set_cons_zero]
  exact text_terminated bs _

/-- What `snprintf` writes reads back as the text, cut to the size of the
memory less one.  The last byte is the terminator's, so that the cut text is a
string too. -/
theorem text_snprintf {mem s : List UInt8} (hs : 0 ∉ s) :
    text (snprintf mem s) = s.take (mem.length - 1) := by
  have htake : 0 ∉ s.take (mem.length - 1) := fun h => hs (List.mem_of_mem_take h)
  rw [snprintf, blit, List.append_assoc]
  exact text_append_zero htake _

end CString
end OSNetWorkCode
