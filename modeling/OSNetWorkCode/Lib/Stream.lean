/-
# A stream of blocks, read `n` at a time

Blocks are written into a stream one behind the other, and a reader takes up to
`n` of what is there.  It gets exactly one block if all blocks there, but
perhaps the last, are of length `n` (`Packed`): then the first `n` are the
first block (`Packed.take`, `Packed.drop`).  Another block may follow if the
last one is of length `n` too (`packed_append`), and that shows in the length
of the stream (`Packed.full`).
-/

import Mathlib.Data.Nat.Notation

namespace OSNetWorkCode
namespace Stream

variable {α : Type*} {n : ℕ} {b : List α} {bs : List (List α)}

/-- All blocks but the last are of length `n`. -/
def Packed (n : ℕ) : List (List α) → Prop
  | [] => True
  | b :: bs => (bs ≠ [] → b.length = n) ∧ Packed n bs

/-- **A reader takes the first block.**  If the first block is shorter than `n`
it is the only one, so that no bytes of another block follow it. -/
theorem Packed.take (h : Packed n (b :: bs)) (hb : b.length ≤ n) :
    (b :: bs).flatten.take n = b := by
  rcases bs with _ | ⟨b', bs⟩
  · rw [List.flatten_cons, List.flatten_nil, List.append_nil, List.take_of_length_le hb]
  · have hlen : b.length = n := h.1 (List.cons_ne_nil b' bs)
    rw [List.flatten_cons, ← hlen, List.take_left]

/-- The other blocks are left: a reader takes the first block and nothing of
the next. -/
theorem Packed.drop (h : Packed n (b :: bs)) (hb : b.length ≤ n) :
    (b :: bs).flatten.drop n = bs.flatten := by
  rcases bs with _ | ⟨b', bs⟩
  · rw [List.flatten_cons, List.flatten_nil, List.append_nil, List.drop_of_length_le hb]
  · have hlen : b.length = n := h.1 (List.cons_ne_nil b' bs)
    rw [List.flatten_cons, ← hlen, List.drop_left]

/-- A block of any length may follow blocks of length `n`.  The packing is lost
only where a block follows one that is shorter. -/
theorem packed_append (hbs : ∀ b ∈ bs, b.length = n) (b : List α) : Packed n (bs ++ [b]) := by
  induction bs with
  | nil => exact ⟨fun h => absurd rfl h, trivial⟩
  | cons b' bs ih =>
    exact ⟨fun _ => hbs b' List.mem_cons_self, ih fun b hb => hbs b (List.mem_cons_of_mem b' hb)⟩

/-- **Where the length of the stream is a multiple of `n` all blocks are of
length `n`.**  So a writer that looks at the length alone may tell whether
another block can follow. -/
theorem Packed.full (h : Packed n bs) (hbs : ∀ b ∈ bs, b ≠ [] ∧ b.length ≤ n)
    (hdvd : n ∣ bs.flatten.length) : ∀ b ∈ bs, b.length = n := by
  induction bs with
  | nil => nofun
  | cons b bs ih =>
    obtain ⟨hne, hle⟩ := hbs b List.mem_cons_self
    have hpos := List.length_pos_iff.2 hne
    have hrest := fun b' hb' => hbs b' (List.mem_cons_of_mem b hb')
    have hlen : b.length = n := by
      rcases bs with _ | ⟨b', bs⟩
      · rw [List.flatten_cons, List.flatten_nil, List.append_nil] at hdvd
        exact Nat.le_antisymm hle (Nat.le_of_dvd hpos hdvd)
      · exact h.1 (List.cons_ne_nil b' bs)
    rw [List.flatten_cons, List.length_append, hlen] at hdvd
    have htail := ih h.2 hrest ((Nat.dvd_add_right (Nat.dvd_refl n)).1 hdvd)
    intro b' hb'
    rcases List.mem_cons.1 hb' with rfl | hb'
    · exact hlen
    · exact htail b' hb'

end Stream
end OSNetWorkCode
