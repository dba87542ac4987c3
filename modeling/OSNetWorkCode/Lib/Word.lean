/-
# Numbers as four bytes

A 32-bit number as it lies in memory, least significant byte first, and back.
A stream of words is cut into words again without loss (`decode_encode`).
-/

import Mathlib.Data.Int.Notation
import Mathlib.Data.List.Basic
import Mathlib.Data.Nat.Notation

namespace OSNetWorkCode
namespace Word

/-- The four bytes of a number. -/
def encode (c : UInt32) : List UInt8 :=
  [.ofNat c.toNat, .ofNat (c.toNat / 256), .ofNat (c.toNat / 65536), .ofNat (c.toNat / 16777216)]

/-- The number in the first four bytes of memory; what is missing counts as
zero. -/
def decode (mem : List UInt8) : UInt32 :=
  .ofNat ((mem.getD 0 0).toNat + 256 * (mem.getD 1 0).toNat + 65536 * (mem.getD 2 0).toNat +
    16777216 * (mem.getD 3 0).toNat)

/-- The number as a signed `int`. -/
def toInt (c : UInt32) : ℤ :=
  if c.toNat < 2147483648 then (c.toNat : ℤ) else (c.toNat : ℤ) - 4294967296

/-- A number has four bytes, whatever it is: a reader of words knows how far to
read. -/
@[simp] theorem length_encode (c : UInt32) : (encode c).length = 4 := rfl

/-- **Four bytes are read back as the number they were.**  What follows in
memory is not looked at. -/
theorem decode_encode (c : UInt32) (rest : List UInt8) : decode (encode c ++ rest) = c := by
  have hlt := c.toNat_lt
  refine UInt32.toNat_inj.1 ?_
  simp only [decode, encode, List.cons_append, List.nil_append, List.getD_cons_zero,
    List.getD_cons_succ, UInt8.toNat_ofNat', UInt32.toNat_ofNat']
  omega

/-- Only the first four bytes of memory tell the number. -/
theorem decode_take_four (mem : List UInt8) : decode (mem.take 4) = decode mem := by
  match mem with
  | [] => rfl
  | [_] => rfl
  | [_, _] => rfl
  | [_, _, _] => rfl
  | _ :: _ :: _ :: _ :: _ => rfl

/-- A number below 2^31 keeps its value as an `int`; from there on it is
negative. -/
theorem toInt_of_lt {c : UInt32} (h : c.toNat < 2147483648) : toInt c = c.toNat := if_pos h

end Word
end OSNetWorkCode
