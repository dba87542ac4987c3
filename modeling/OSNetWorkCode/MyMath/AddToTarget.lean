/-
# `addToTarget` sums a range, as far as an `int` goes

`1105/myLib2/mklib/mymath.c` and `1031/part2/myLib/mklib/mymath.c`.  The loop
adds up the numbers from `from` to `to`.  Both the running sum and the counter
are of type `int`, so what is asked of them is more than that the sum is one:
the counter is moved past `to`, and where the range begins below zero and ends
above, the running sum first falls to the sum of the negative part.

`loop_eq_some_iff` says what the loop comes to; `sums_iff` when that is the
sum.
-/

import Mathlib.Algebra.BigOperators.Group.Finset.Basic
import Mathlib.Algebra.Order.Interval.Finset.SuccPred
import Mathlib.Data.Int.ConditionallyCompleteOrder
import Mathlib.Data.Int.Interval
import Mathlib.Data.Int.SuccPred
import Mathlib.Tactic.Linarith
import Mathlib.Tactic.Ring
import OSNetWorkCode.Lib.Checked

namespace OSNetWorkCode
namespace MyMath

open Checked Finset

/-- `for (; i <= to; i++) sum += i;`, and what `sum` is then; `none` where an
addition overflows. -/
def loop (to_ sum i : BitVec 32) : Option (BitVec 32) :=
  if _hle : i.sle to_ then
    match add sum i with
    | none => none
    | some sum =>
      match _hi : add i 1 with
      | none => none
      | some i' => loop to_ sum i'
  else some sum
termination_by (to_.toInt + 1 - i.toInt).toNat
decreasing_by
  have hstep : i'.toInt = i.toInt + 1 := add_eq_some_iff.1 _hi
  have hle' : i.toInt ≤ to_.toInt := BitVec.sle_iff_toInt_le.1 _hle
  omega

/-- `addToTarget(from, to)`. -/
def addToTarget (from_ to_ : BitVec 32) : Option (BitVec 32) := loop to_ 0 from_

/-! ### Sums of ranges -/

/-- One number more.  The range is cut at its upper end, where the loop is. -/
theorem sum_Icc_succ {f k : ℤ} (h : f ≤ k) : ∑ x ∈ Icc f k, x = ∑ x ∈ Icc f (k - 1), x + k := by
  have hinsert : insert (k - 1 + 1) (Icc f (k - 1)) = Icc f (k - 1 + 1) :=
    insert_Icc_right_eq_Icc_add_one (by omega)
  rw [sub_add_cancel] at hinsert
  rw [← hinsert, sum_insert (by simp), add_comm]

/-- **The closed form,** by induction on the length of the range. -/
theorem two_mul_sum_Icc {f k : ℤ} (h : f - 1 ≤ k) :
    2 * ∑ x ∈ Icc f k, x = (f + k) * (k - f + 1) := by
  induction k, h using Int.leInduction with
  | base => simp
  | succ k hk ih =>
    rw [sum_Icc_succ (by omega), add_sub_cancel_right, mul_add, ih]
    ring

/-! ### The loop -/

section loop

variable {to_ sum i : BitVec 32}

/-- Behind `to` the loop ends with the sum as it is. -/
theorem loop_of_lt (h : to_.toInt < i.toInt) : loop to_ sum i = some sum := by
  have hnot : ¬ i.sle to_ := fun hle => by
    have := BitVec.sle_iff_toInt_le.1 hle
    omega
  rw [loop, dif_neg hnot]

/-- Up to `to` there is one more round, and it fails where one of the two
additions overflows. -/
theorem loop_of_le (h : i.toInt ≤ to_.toInt) :
    loop to_ sum i = (add sum i).bind fun sum => (add i 1).bind fun i => loop to_ sum i := by
  rw [loop, dif_pos (BitVec.sle_iff_toInt_le.2 h)]
  cases add sum i with
  | none => rfl
  | some sum' =>
    dsimp only [Option.bind_some]
    split
    · rename_i hnone
      rw [hnone]
      rfl
    · rename_i i' hi'
      rw [hi']
      rfl

/-- **A round** adds one number to the sum, which is then the sum of one number
more. -/
theorem round {f : ℤ} {sum' i' : BitVec 32} (hf : f ≤ i.toInt)
    (hsum : sum.toInt = ∑ x ∈ Icc f (i.toInt - 1), x) (hs : add sum i = some sum')
    (hi : add i 1 = some i') :
    i'.toInt = i.toInt + 1 ∧ sum'.toInt = ∑ x ∈ Icc f i.toInt, x := by
  rw [sum_Icc_succ hf, ← hsum]
  exact ⟨add_eq_some_iff.1 hi, add_eq_some_iff.1 hs⟩

/-- **What the loop comes to:** the sum, if no sum up to a number of the range
overflows and no number behind one does.  The induction is on the numbers that
are left. -/
theorem loop_eq_some_iff {f : ℤ} {r : BitVec 32} (hf : f ≤ i.toInt)
    (hsum : sum.toInt = ∑ x ∈ Icc f (i.toInt - 1), x) (hi : i.toInt ≤ to_.toInt + 1) :
    loop to_ sum i = some r ↔ r.toInt = ∑ x ∈ Icc f to_.toInt, x ∧
      ∀ k, i.toInt ≤ k → k ≤ to_.toInt → Fits 32 (∑ x ∈ Icc f k, x) ∧ Fits 32 (k + 1) := by
  obtain ⟨n, hn⟩ : ∃ n : ℕ, to_.toInt + 1 = i.toInt + n :=
    ⟨(to_.toInt + 1 - i.toInt).toNat, by omega⟩
  induction n generalizing sum i with
  | zero =>
    have hlt : to_.toInt < i.toInt := by omega
    have hlast : i.toInt - 1 = to_.toInt := by omega
    rw [hlast] at hsum
    rw [loop_of_lt hlt, Option.some.injEq, ← hsum, BitVec.toInt_inj]
    constructor
    · rintro rfl
      exact ⟨rfl, fun k hk hk' => by omega⟩
    · exact fun h => h.1.symm
  | succ n ih =>
    push_cast at hn
    have hle : i.toInt ≤ to_.toInt := by omega
    have hnext {sum' i'} (hs : add sum i = some sum') (hi' : add i 1 = some i') :
        loop to_ sum' i' = some r ↔ r.toInt = ∑ x ∈ Icc f to_.toInt, x ∧
          ∀ k, i'.toInt ≤ k → k ≤ to_.toInt →
            Fits 32 (∑ x ∈ Icc f k, x) ∧ Fits 32 (k + 1) := by
      obtain ⟨hstep, hnew⟩ := round hf hsum hs hi'
      have hlast : i'.toInt - 1 = i.toInt := by omega
      exact ih (by omega) (by rw [hlast, hnew]) (by omega) (by omega)
    rw [loop_of_le hle]
    constructor
    · intro h
      obtain ⟨sum', hs, h⟩ := Option.bind_eq_some_iff.1 h
      obtain ⟨i', hi', h⟩ := Option.bind_eq_some_iff.1 h
      obtain ⟨hstep, hnew⟩ := round hf hsum hs hi'
      obtain ⟨hr, hrest⟩ := (hnext hs hi').1 h
      refine ⟨hr, fun k hk hk' => ?_⟩
      rcases eq_or_lt_of_le hk with rfl | hlt
      · rw [← hnew, ← hstep]
        exact ⟨fits_toInt sum', fits_toInt i'⟩
      · exact hrest k (by omega) hk'
    · rintro ⟨hr, hrest⟩
      obtain ⟨hfits, hcount⟩ := hrest i.toInt le_rfl hle
      rw [sum_Icc_succ hf, ← hsum] at hfits
      obtain ⟨sum', hs⟩ := exists_add_iff.2 hfits
      obtain ⟨i', hi'⟩ : ∃ i', add i 1 = some i' := exists_add_iff.2 hcount
      obtain ⟨hstep, -⟩ := round hf hsum hs hi'
      rw [hs, Option.bind_some, hi', Option.bind_some]
      exact (hnext hs hi').2 ⟨hr, fun k hk hk' => hrest k (by omega) hk'⟩

end loop

/-! ### Which sums overflow on the way -/

/-- Sums from `f` on, as a function of where they end: a parabola, lowest where
the numbers turn positive. -/
theorem two_mul_sum {f k : ℤ} (h : f - 1 ≤ k) :
    2 * ∑ x ∈ Icc f k, x = k * (k + 1) - f * (f - 1) := by
  rw [two_mul_sum_Icc h]
  ring

/-- **No sum overflows on the way** and the counter can be moved past the
range, where the range ends below the largest number, and lies below zero or
does not begin below `-65535`. -/
theorem partial_sums_fit {f t : ℤ} (hf : -2 ^ 31 ≤ f) (hsum : Fits 32 (∑ x ∈ Icc f t, x))
    (ht : t < 2 ^ 31 - 1) (hrange : t < 0 ∨ -65535 ≤ f) {k : ℤ} (hk : f ≤ k) (hk' : k ≤ t) :
    Fits 32 (∑ x ∈ Icc f k, x) ∧ Fits 32 (k + 1) := by
  have hend := two_mul_sum (f := f) (k := t) (by omega)
  have hpart := two_mul_sum (f := f) (k := k) (by omega)
  obtain ⟨hlow, hhigh⟩ := hsum
  norm_num at hlow hhigh hf ht
  refine ⟨⟨?_, ?_⟩, ?_, ?_⟩
  · norm_num
    rcases hrange with hneg | hbegin
    · nlinarith
    · -- the least partial sum is that of the negative part
      have hrise : 0 ≤ k * (k + 1) := by
        rcases le_or_gt 0 k with hpos | hneg <;> nlinarith
      rcases le_or_gt 0 f with hpos | hneg
      · nlinarith
      · have hfall : f * (f - 1) ≤ 65535 * 65536 := by nlinarith
        omega
  · norm_num
    rcases le_or_gt 0 k with hpos | hneg <;> nlinarith
  · norm_num
    omega
  · norm_num
    omega

/-- The sum of the negative part overflows from `-65536` on, even where the
numbers behind zero would make up for it. -/
theorem negative_part_overflows {f : ℤ} (hf : f < -65535) :
    ¬ Fits 32 (∑ x ∈ Icc f (-1), x) := by
  rintro ⟨hlow, -⟩
  have hsum := two_mul_sum (f := f) (k := -1) (by omega)
  norm_num at hlow
  nlinarith

/-- `addToTarget` returns the sum, and no addition overflows. -/
def Sums (from_ to_ : BitVec 32) : Prop :=
  ∃ sum, addToTarget from_ to_ = some sum ∧
    sum.toInt = if to_.toInt < from_.toInt then 0
      else (from_.toInt + to_.toInt) * (to_.toInt - from_.toInt + 1) / 2

/-- **Exactly when `addToTarget` sums a range,** among the ranges whose sum is
an `int`: where the range is empty, or it ends below the largest `int` and lies
below zero or does not begin below `-65535`. -/
theorem sums_iff (from_ to_ : BitVec 32)
    (h : Fits 32 (∑ x ∈ Icc from_.toInt to_.toInt, x)) :
    Sums from_ to_ ↔ to_.toInt < from_.toInt ∨
      to_.toInt < 2 ^ 31 - 1 ∧ (to_.toInt < 0 ∨ -65535 ≤ from_.toInt) := by
  unfold Sums
  rcases lt_or_ge to_.toInt from_.toInt with hlt | hle
  · refine iff_of_true ⟨0, loop_of_lt hlt, ?_⟩ (.inl hlt)
    rw [if_pos hlt]
    rfl
  · have hbegin := (fits_toInt from_).1
    have hempty : (0 : BitVec 32).toInt = ∑ x ∈ Icc from_.toInt (from_.toInt - 1), x := by
      rw [Icc_eq_empty (by omega)]
      rfl
    have hloop {r} := loop_eq_some_iff (r := r) le_rfl hempty (Int.le_add_one hle)
    have hclosed := two_mul_sum_Icc (f := from_.toInt) (k := to_.toInt) (by omega)
    rw [if_neg (not_lt.2 hle), ← hclosed, Int.mul_ediv_cancel_left _ two_ne_zero]
    constructor
    · rintro ⟨r, hr, -⟩
      obtain ⟨-, hfits⟩ := hloop.1 hr
      right
      obtain ⟨-, -, hlast⟩ := hfits to_.toInt hle le_rfl
      refine ⟨by norm_num at hlast ⊢; omega, ?_⟩
      by_contra hnot
      obtain ⟨hpos, hneg⟩ := not_or.1 hnot
      exact negative_part_overflows (by omega) (hfits (-1) (by omega) (by omega)).1
    · rintro (hlt | ⟨hlast, hrange⟩)
      · exact absurd hlt (not_lt.2 hle)
      · have hsum : (BitVec.ofInt 32 (∑ x ∈ Icc from_.toInt to_.toInt, x)).toInt = _ :=
          BitVec.toInt_ofInt_eq_self (by decide) h.1 h.2
        exact ⟨_, hloop.2 ⟨hsum, fun k hk hk' => partial_sums_fit hbegin h hlast hrange hk hk'⟩,
          hsum⟩

/-- From `1` to `10`, where none of this is in the way. -/
theorem sums_iff_ten : Sums 1 10 :=
  (sums_iff 1 10 (by decide)).2 (.inr (by decide))

/-- **The range of the largest `int` alone is not summed:** the counter is
moved past it. -/
theorem largest_overflows : Fits 32 (∑ x ∈ Icc (2147483647 : BitVec 32).toInt
    (2147483647 : BitVec 32).toInt, x) ∧ addToTarget 2147483647 2147483647 = none ∧
      ¬ Sums 2147483647 2147483647 := by
  have hnone : addToTarget 2147483647 2147483647 = none := by
    rw [addToTarget, loop_of_le (by decide)]
    rfl
  refine ⟨by decide, hnone, ?_⟩
  rintro ⟨sum, hsum, -⟩
  rw [hnone] at hsum
  cases hsum

end MyMath
end OSNetWorkCode
