/-
# Signed numbers whose additions may overflow

Signed arithmetic of `w` bits where an overflow is undefined: `add` gives the
exact sum or nothing, and nothing exactly where the exact sum does not fit
(`exists_add_iff`).
-/

import Mathlib.Algebra.Group.Int.Defs
import Mathlib.Tactic.SplitIfs

namespace OSNetWorkCode
namespace Checked

variable {w : ℕ} {a b c : BitVec w} {x : ℤ}

/-- The number is one of `w` bits. -/
def Fits (w : ℕ) (x : ℤ) : Prop := -2 ^ (w - 1) ≤ x ∧ x < 2 ^ (w - 1)

/-- Whether a number fits can be computed, so that a run of the checked sum can
be evaluated. -/
instance : Decidable (Fits w x) := inferInstanceAs (Decidable (_ ∧ _))

/-- What a word stands for fits: the bounds are those of two's complement. -/
theorem fits_toInt (a : BitVec w) : Fits w a.toInt := ⟨a.le_toInt, a.toInt_lt⟩

/-- `a + b`, where it does not overflow. -/
def add (a b : BitVec w) : Option (BitVec w) := if a.saddOverflow b then none else some (a + b)

/-- An addition overflows exactly where the sum of the two numbers is none of
`w` bits. -/
theorem saddOverflow_iff : a.saddOverflow b ↔ ¬ Fits w (a.toInt + b.toInt) := by
  unfold BitVec.saddOverflow Fits
  rw [Bool.or_eq_true, decide_eq_true_eq, decide_eq_true_eq]
  omega

/-- **What is added is the exact sum.**  A checked addition has no wrapped
result: it gives a word exactly where that word stands for the sum. -/
theorem add_eq_some_iff : add a b = some c ↔ c.toInt = a.toInt + b.toInt := by
  unfold add
  constructor
  · intro h
    split_ifs at h with hover
    obtain rfl := Option.some.inj h
    exact BitVec.toInt_add_of_not_saddOverflow hover
  · intro h
    have hover : ¬ a.saddOverflow b := by
      rw [saddOverflow_iff, ← h]
      exact not_not_intro (fits_toInt c)
    have hsum := BitVec.toInt_add_of_not_saddOverflow hover
    rw [if_neg hover, BitVec.toInt_inj.1 (hsum.trans h.symm)]

/-- **There is a sum exactly where it fits.**  Both directions are used: a loop
that does not stop has only sums that fit, and one that has only such sums does
not stop. -/
theorem exists_add_iff : (∃ c, add a b = some c) ↔ Fits w (a.toInt + b.toInt) := by
  constructor
  · rintro ⟨c, hc⟩
    rw [← add_eq_some_iff.1 hc]
    exact fits_toInt c
  · intro h
    have hover : ¬ a.saddOverflow b := fun hover => saddOverflow_iff.1 hover h
    exact ⟨a + b, if_neg hover⟩

end Checked
end OSNetWorkCode
