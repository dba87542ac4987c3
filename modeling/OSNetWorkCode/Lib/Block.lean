/-
# Arrays of bytes and what lies in front of them

C code that walks an array backwards may look at the byte in front of it.  A
`Block` is an array of `n` bytes together with the memory in front, nearest
byte first; addresses are counted from the start of the array, so that the byte
in front has address `-1`.  A load or a store at any other address is `none`.
Where `front` is empty, only the array itself can be touched.

The lemmas describe each access where the array is cut at the address in
question: `pre ++ c :: post` with `pre` as long as the address.
-/

import OSNetWorkCode.Lib.CString
import Mathlib.Data.Int.Notation

namespace OSNetWorkCode

/-- An array of `n` bytes, with the memory in front of it, nearest byte
first. -/
structure Block (n : ℕ) where
  front : List UInt8
  mem : List UInt8
  length_mem : mem.length = n

namespace Block

variable {n : ℕ}

/-- The byte at an address. -/
def load (b : Block n) : ℤ → Option UInt8
  | .ofNat i => b.mem[i]?
  | .negSucc i => b.front[i]?

/-- A byte stored at an address. -/
def store (b : Block n) (a : ℤ) (c : UInt8) : Option (Block n) :=
  match a with
  | .ofNat i =>
    if i < n then some ⟨b.front, b.mem.set i c, List.length_set.trans b.length_mem⟩ else none
  | .negSucc i =>
    if i < b.front.length then some { b with front := b.front.set i c } else none

/-- `bytes` copied to `a`. -/
def copy (b : Block n) (a : ℕ) (bytes : List UInt8) : Option (Block n) :=
  if h : a + bytes.length ≤ n then
    some ⟨b.front, b.mem.take a ++ bytes ++ b.mem.drop (a + bytes.length), by
      have hlen := b.length_mem
      simp only [List.length_append, List.length_take, List.length_drop]
      omega⟩
  else none

/-- `strlen` of the string at `a`. -/
def strlen (b : Block n) (a : ℕ) : Option ℕ := CString.strlen (b.mem.drop a)

/-- How many bytes from `a` on satisfy `p`. -/
def span (p : UInt8 → Bool) (b : Block n) (a : ℕ) : Option ℕ := CString.span p (b.mem.drop a)

/-- The string at `a`, up to its terminator. -/
def string (b : Block n) (a : ℕ) : Option (List UInt8) :=
  (b.strlen a).map fun len => (b.mem.drop a).take len

/-- A store changes a byte, in the array or in front of it, and no length.  So
a program that has gone over an array may go over it again with as much memory
in front as before. -/
theorem length_front_store {b b' : Block n} {a : ℤ} {c : UInt8} (h : b.store a c = some b') :
    b'.front.length = b.front.length := by
  unfold store at h
  split at h <;> split_ifs at h <;> obtain rfl := Option.some.inj h
  · rfl
  · exact List.length_set

/-- Where a zero is stored the array has one, if it has had one before: it is
not overwritten by anything else.  The array stays a string, however often its
end is cut off. -/
theorem zero_mem_store {b b' : Block n} {a : ℤ} (h : b.store a 0 = some b') (h0 : 0 ∈ b.mem) :
    0 ∈ b'.mem := by
  unfold store at h
  split at h <;> split_ifs at h with hlt <;> obtain rfl := Option.some.inj h
  · exact List.mem_set (b.length_mem.symm ▸ hlt) 0
  · exact h0

/-- An array that has a zero holds a string: the search for the terminator
stops inside the array. -/
theorem exists_string {b : Block n} (h0 : 0 ∈ b.mem) : ∃ w, b.string 0 = some w := by
  have hlen : b.strlen 0 = some (CString.text b.mem).length := if_pos h0
  exact ⟨_, by rw [string, hlen, Option.map_some]⟩

/-- **A copy inside the array keeps what lies in front of it and before it.**
What it overwrites is exactly as long as what is copied, and the bytes behind
stay where they are. -/
theorem copy_eq {b : Block n} {a : ℕ} {bytes : List UInt8} (h : a + bytes.length ≤ n) :
    ∃ b', b.copy a bytes = some b' ∧ b'.front = b.front ∧
      b'.mem = b.mem.take a ++ bytes ++ b.mem.drop (a + bytes.length) :=
  ⟨_, dif_pos h, rfl, rfl⟩

section cut

variable {b : Block n} {pre w post : List UInt8} {c : UInt8} {a : ℕ}

/-- Where the array is cut at an address, a load there gives the first byte
behind the cut.  The loops over arrays read by this rule, with the bytes
already passed in front of the cut. -/
theorem load_eq (hmem : b.mem = pre ++ c :: post) (ha : a = pre.length) :
    b.load (a : ℤ) = some c := by
  subst ha
  show b.mem[pre.length]? = some c
  rw [hmem, List.getElem?_append_right (Nat.le_refl _), Nat.sub_self]
  rfl

/-- **A store inside the array changes the byte at its address and nothing
else.**  With `load_eq` this is what the loops over arrays are proved from. -/
theorem store_eq (hmem : b.mem = pre ++ c :: post) (ha : a = pre.length) (c' : UInt8) :
    ∃ b', b.store (a : ℤ) c' = some b' ∧ b'.front = b.front ∧ b'.mem = pre ++ c' :: post := by
  subst ha
  have hlt : pre.length < n := by
    rw [← b.length_mem, hmem, List.length_append, List.length_cons]
    omega
  refine ⟨⟨b.front, b.mem.set pre.length c', List.length_set.trans b.length_mem⟩, if_pos hlt, rfl,
    ?_⟩
  show b.mem.set pre.length c' = _
  rw [hmem, List.set_append_right _ _ (Nat.le_refl _), Nat.sub_self]
  rfl

/-- The bytes of a kind that lie between an address and the next byte of
another kind are counted, however the array goes on. -/
theorem span_eq {p : UInt8 → Bool} (hmem : b.mem = pre ++ (w ++ c :: post)) (ha : a = pre.length)
    (hw : ∀ c ∈ w, p c = true) (hc : p c = false) : b.span p a = some w.length := by
  subst ha
  unfold span
  rw [hmem, List.drop_left]
  exact CString.span_append hw hc post

/-- `strlen` at an address where a text with its terminator lies gives the
length of the text, whatever follows the terminator. -/
theorem strlen_eq (hmem : b.mem = pre ++ (w ++ 0 :: post)) (ha : a = pre.length) (hw : 0 ∉ w) :
    b.strlen a = some w.length := by
  subst ha
  unfold strlen
  rw [hmem, List.drop_left]
  exact CString.strlen_append_zero hw post

/-- The string at an address where a text with its terminator lies is that
text: what a later reader of the array sees of the bytes put there. -/
theorem string_eq (hmem : b.mem = pre ++ (w ++ 0 :: post)) (ha : a = pre.length) (hw : 0 ∉ w) :
    b.string a = some w := by
  unfold string
  rw [strlen_eq hmem ha hw, Option.map_some, hmem, ha, List.drop_left, List.take_left]

end cut

end Block
end OSNetWorkCode
