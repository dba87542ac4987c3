/-
# Decimal numbers as text

`decimal n` is what `%u` prints: the digits of `n` as bytes, without leading
zeros.  It has only digits in it (`digit_of_mem`), as few as the size of `n`
tells (`length_le`), and tells `n` (`decimal_injective`); so a text in which
decimals stand between other bytes can be taken apart again
(`append_cons_inj`).
-/

import Mathlib.Algebra.Group.Nat.Defs
import Mathlib.Data.List.Basic
import Mathlib.Data.Nat.Notation

namespace OSNetWorkCode

/-- The digits of `n`, most significant first. -/
def decimal (n : ℕ) : List UInt8 := (Nat.toDigits 10 n).map Char.toUInt8

namespace Decimal

/-- The characters that count as digits are those with the codes 48 to 57. -/
theorem toNat_of_isDigit {c : Char} (h : c.isDigit) : 48 ≤ c.toNat ∧ c.toNat ≤ 57 :=
  Char.isDigit_iff_toNat.1 h

/-- A digit keeps its value as a byte: all digits are below 256, so that no two
of them become the same byte. -/
theorem ofNat_toUInt8 {c : Char} (h : c.isDigit) : Char.ofNat c.toUInt8.toNat = c := by
  have hle : c.toNat ≤ 57 := (toNat_of_isDigit h).2
  have hval : c.toUInt8.toNat = c.toNat := by
    show c.toNat % 256 = c.toNat
    omega
  rw [hval, Char.ofNat_toNat]

/-- **The text tells the number.**  Two numbers with one decimal text are the
same, since the digits can be read again and no digit is lost as a byte. -/
theorem decimal_injective : Function.Injective decimal := by
  intro m n h
  have hback : ∀ k, (decimal k).map (fun b => Char.ofNat b.toNat) = Nat.toDigits 10 k := by
    intro k
    rw [decimal, List.map_map]
    refine (List.map_congr_left fun c hc => ?_).trans (List.map_id _)
    exact ofNat_toUInt8 (Nat.isDigit_of_mem_toDigits (by decide) (by decide) hc)
  have hdigits : Nat.toDigits 10 m = Nat.toDigits 10 n := by
    rw [← hback m, ← hback n, h]
  rw [← Nat.ofDigitChars_ten_toDigits (n := m), ← Nat.ofDigitChars_ten_toDigits (n := n), hdigits]

/-- A decimal consists of the bytes `'0'` to `'9'`.  So a dash, a blank or a
newline behind it cannot be taken for part of it. -/
theorem digit_of_mem {n : ℕ} {b : UInt8} (h : b ∈ decimal n) : 48 ≤ b.toNat ∧ b.toNat ≤ 57 := by
  obtain ⟨c, hc, rfl⟩ := List.mem_map.1 h
  have hd := toNat_of_isDigit (Nat.isDigit_of_mem_toDigits (by decide) (by decide) hc)
  show 48 ≤ c.toNat % 256 ∧ c.toNat % 256 ≤ 57
  omega

/-- A number below `10 ^ k` has at most `k` digits.  This bounds the texts that
are put into an array of fixed size. -/
theorem length_le {n k : ℕ} (hk : 0 < k) (hn : n < 10 ^ k) : (decimal n).length ≤ k := by
  rw [decimal, List.length_map]
  exact (Nat.length_toDigits_le_iff (by decide) hk).2 hn

/-- A text is cut in one way only at the first byte of a kind.  Used once for
each separator, it takes a text with several parts apart. -/
theorem append_cons_inj {v w r t : List UInt8} {c : UInt8} (hv : c ∉ v) (hw : c ∉ w)
    (h : v ++ c :: r = w ++ c :: t) : v = w ∧ r = t := by
  induction v generalizing w with
  | nil =>
    cases w with
    | nil => exact ⟨rfl, (List.cons.inj h).2⟩
    | cons b w =>
      have hb : c = b := (List.cons.inj h).1
      exact absurd (by simp [hb]) hw
  | cons a v ih =>
    cases w with
    | nil =>
      have ha : a = c := (List.cons.inj h).1
      exact absurd (by simp [ha]) hv
    | cons b w =>
      obtain ⟨hab, htail⟩ := List.cons.inj h
      obtain ⟨hvw, hrt⟩ := ih (fun hc => hv (List.mem_cons_of_mem a hc))
        (fun hc => hw (List.mem_cons_of_mem b hc)) htail
      exact ⟨by rw [hab, hvw], hrt⟩

end Decimal
end OSNetWorkCode
