/-
# Where `CheckRedir` splits a string

`CheckRedir` on any string: from the right it looks for `'<'` or `'>'`, and for
a `'>'` also at the byte in front of it, to tell `>>` from `>`.  `redirAt` and
`operatorStart` say what the operator at an index is and where it begins.

There are three operators (`Op`), and a string is cut at the last one that is
in it (`checkRedir_op`), wherever that is (`checkRedir_last`), with one
exception: when it is a `'>'` at the very beginning, the byte looked at is not
part of the string (`checkRedir_first`), and where it happens to be a `'>'` too
it is overwritten.
-/

import OSNetWorkCode.Shell.Tokens

namespace OSNetWorkCode
namespace Shell

/-- `'<'` or `'>'`. -/
def operator (c : UInt8) : Prop := c = lt ∨ c = gt

/-- Whether a byte is an operator can be computed. -/
instance (c : UInt8) : Decidable (operator c) := inferInstanceAs (Decidable (_ ∨ _))

/-- The last operator of `s` is at `i`. -/
structure LastAt (s : List UInt8) (i : ℕ) : Prop where
  here : ∃ c, s[i]? = some c ∧ operator c
  last : ∀ j c, i < j → s[j]? = some c → ¬ operator c

/-- The kind of the redirection whose operator ends at `i`. -/
def redirAt (s : List UInt8) (i : ℕ) : Redir :=
  if s[i]? = some lt then .input
  else if 0 < i ∧ s[i - 1]? = some gt then .append
  else .output

/-- Where that operator begins. -/
def operatorStart (s : List UInt8) (i : ℕ) : ℕ := if redirAt s i = .append then i - 1 else i

/-- A last operator cuts the string into what is in front of it and a file name
without operators. -/
theorem LastAt.exists_cut {s : List UInt8} {i : ℕ} (h : LastAt s i) : ∃ pre c file,
    s = pre ++ c :: file ∧ pre.length = i ∧ operator c ∧ ∀ x ∈ file, ¬ operator x := by
  obtain ⟨c, hc, hop⟩ := h.here
  obtain ⟨hlt, rfl⟩ := List.getElem?_eq_some_iff.1 hc
  refine ⟨s.take i, s[i], s.drop (i + 1), ?_, ?_, hop, fun x hx => ?_⟩
  · rw [← List.drop_eq_getElem_cons hlt, List.take_append_drop]
  · rw [List.length_take]
    omega
  · obtain ⟨k, hk, rfl⟩ := List.mem_iff_getElem.1 hx
    refine h.last (i + 1 + k) _ (by omega) ?_
    rw [← List.getElem?_drop]
    exact List.getElem?_eq_getElem hk

/-- And where a string is cut so, the operator is its last one. -/
theorem lastAt_cut {pre file : List UInt8} {c : UInt8} (hc : operator c)
    (hfile : ∀ x ∈ file, ¬ operator x) : LastAt (pre ++ c :: file) pre.length where
  here := ⟨c, by rw [List.getElem?_append_right (Nat.le_refl _), Nat.sub_self]; rfl, hc⟩
  last j x hj hx := by
    obtain ⟨k, rfl⟩ : ∃ k, j = pre.length + (k + 1) := ⟨j - pre.length - 1, by omega⟩
    rw [List.getElem?_append_right (by omega), Nat.add_sub_cancel_left] at hx
    exact hfile x (List.mem_of_getElem? hx)

/-! ### The three operators -/

/-- The redirections that there are. -/
inductive Op
  | input
  | output
  | append
  deriving DecidableEq

/-- The operator as it is typed. -/
def Op.bytes : Op → List UInt8
  | .input => [lt]
  | .output => [gt]
  | .append => [gt, gt]

/-- What `CheckRedir` makes of the operator. -/
def Op.cut : Op → List UInt8
  | .input | .output => [0]
  | .append => [0, gt]

/-- What it sets `redir_status` to. -/
def Op.redir : Op → Redir
  | .input => .input
  | .output => .output
  | .append => .append

/-- `pre` does not end where `op` would be read as another operator: in front
of a single `'>'` is a byte, and another one. -/
def Op.Behind (pre : List UInt8) (op : Op) : Prop :=
  op = .output → ∃ init x, pre = init ++ [x] ∧ x ≠ gt

/-- To cut a string at an operator is to overwrite its first byte, and only
that one. -/
theorem Op.set_bytes (op : Op) (pre file : List UInt8) :
    (pre ++ (op.bytes ++ file)).set pre.length 0 = pre ++ (op.cut ++ file) := by
  rw [List.set_append_right _ _ (Nat.le_refl _), Nat.sub_self]
  cases op <;> rfl

/-- A `'<'` is what it is, whatever is in front of it. -/
theorem redirAt_lt (pre file : List UInt8) : redirAt (pre ++ lt :: file) pre.length = .input := by
  refine if_pos ?_
  rw [List.getElem?_append_right (Nat.le_refl _), Nat.sub_self]
  rfl

/-- A `'>'` behind another byte is `>` or `>>`, as that byte says.  The code
tells them apart by `b[end-1]`. -/
theorem redirAt_gt (init file : List UInt8) (x : UInt8) :
    redirAt (init ++ [x] ++ gt :: file) (init ++ [x]).length =
      if x = gt then .append else .output := by
  have hhere : (init ++ [x] ++ gt :: file)[(init ++ [x]).length]? = some gt := by
    rw [List.getElem?_append_right (Nat.le_refl _), Nat.sub_self]
    rfl
  have hlen : (init ++ [x]).length = init.length + 1 := List.length_append
  have hbefore : (init ++ [x] ++ gt :: file)[(init ++ [x]).length - 1]? = some x := by
    rw [hlen, Nat.add_sub_cancel, List.append_assoc,
      List.getElem?_append_right (Nat.le_refl _), Nat.sub_self]
    rfl
  have hpos : 0 < (init ++ [x]).length := by omega
  rw [redirAt, hhere, hbefore, if_neg (by decide)]
  simp only [hpos, true_and, Option.some.injEq]

/-- **A last byte that is an operator ends one of the three,** if it is not a
`'>'` at the beginning. -/
theorem exists_op {pre : List UInt8} {c : UInt8} (hc : operator c) (hpre : c = gt → pre ≠ []) :
    ∃ (op : Op) (start : List UInt8), pre ++ [c] = start ++ op.bytes ∧ op.Behind start ∧
      ∀ file, redirAt (pre ++ c :: file) pre.length = op.redir ∧
        operatorStart (pre ++ c :: file) pre.length = start.length := by
  rcases hc with rfl | rfl
  · refine ⟨.input, pre, rfl, nofun, fun file => ?_⟩
    have hredir := redirAt_lt pre file
    refine ⟨hredir, ?_⟩
    rw [operatorStart, hredir]
    rfl
  · obtain ⟨init, x, rfl⟩ : ∃ init x, pre = init ++ [x] :=
      ⟨_, _, (List.dropLast_concat_getLast (hpre rfl)).symm⟩
    by_cases hx : x = gt
    · subst hx
      refine ⟨.append, init, List.append_assoc .., nofun, fun file => ?_⟩
      have hredir := (redirAt_gt init file gt).trans (if_pos rfl)
      refine ⟨hredir, ?_⟩
      rw [operatorStart, if_pos hredir, List.length_append]
      rfl
    · refine ⟨.output, init ++ [x], rfl, fun _ => ⟨init, x, rfl, hx⟩, fun file => ?_⟩
      have hredir := (redirAt_gt init file x).trans (if_neg hx)
      refine ⟨hredir, ?_⟩
      rw [operatorStart, hredir]
      rfl

/-! ### Any string in any memory -/

section checkRedir

variable {n : ℕ} {b : Block n} {pre file post : List UInt8} {c : UInt8}

/-- `strlen` of a string with its terminator, whatever is behind that. -/
theorem strlen_string {s : List UInt8} (hmem : b.mem = s ++ 0 :: post) (h0 : 0 ∉ s) :
    b.strlen 0 = some s.length :=
  Block.strlen_eq (show b.mem = [] ++ (s ++ 0 :: post) from hmem) rfl h0

/-- **What is behind the last operator is gone over,** so that the scan begins
there. -/
theorem checkRedir_eq_scan (hmem : b.mem = pre ++ (file ++ 0 :: post)) (h0 : 0 ∉ pre ++ file)
    (hfile : ∀ x ∈ file, ¬ operator x) : checkRedir b = (scan b pre.length).bind fun r =>
      some (r.1, r.2.1, if 0 ≤ r.2.2 then some r.2.2.toNat else none) := by
  have hstring : b.mem = (pre ++ file) ++ 0 :: post := by
    rw [hmem, List.append_assoc]
  show (b.strlen 0).bind _ = _
  rw [strlen_string hstring h0, Option.bind_some, List.length_append,
    ← scan_skip hmem fun x hx => not_or.1 (hfile x hx)]
  rfl

/-- **A string without operators is left alone.** -/
theorem checkRedir_clean {s : List UInt8} (hmem : b.mem = s ++ 0 :: post) (h0 : 0 ∉ s)
    (hs : ∀ x ∈ s, ¬ operator x) : checkRedir b = some (b, .none, none) := by
  have hwhole : b.mem = [] ++ (s ++ 0 :: post) := hmem
  exact checkRedir_eq_scan hwhole h0 hs

/-- The scan meets an operator, and cuts the string there.  For `>>` it goes
one byte further to the left than for the others. -/
theorem scan_op (op : Op) (hmem : b.mem = pre ++ (op.bytes ++ post)) (hpre : op.Behind pre) :
    ∃ b' : Block n, scan b (pre.length + op.bytes.length) =
        some (b', op.redir, ((pre.length + op.bytes.length : ℕ) : ℤ)) ∧
      b'.front = b.front ∧ b'.mem = pre ++ (op.cut ++ post) := by
  cases op with
  | input => exact scan_input hmem
  | append => exact scan_append hmem
  | output =>
    obtain ⟨init, x, rfl, hx⟩ := hpre rfl
    have hmem₁ : b.mem = init ++ x :: gt :: post := by
      rw [hmem, List.append_assoc]
      rfl
    obtain ⟨b', hscan, hfront, hmem'⟩ := scan_output hmem₁ hx
    refine ⟨b', ?_, hfront, ?_⟩
    · rw [List.length_append]
      exact hscan
    · rw [hmem', List.append_assoc]
      rfl

/-- **The string is cut at its last operator,** and the file name is behind it.
Operators in front of that one stay in the command. -/
theorem checkRedir_op (op : Op) (hmem : b.mem = pre ++ (op.bytes ++ (file ++ 0 :: post)))
    (h0 : 0 ∉ pre ++ (op.bytes ++ file)) (hfile : ∀ x ∈ file, ¬ operator x)
    (hpre : op.Behind pre) :
    ∃ b' : Block n,
      checkRedir b = some (b', op.redir, some (pre.length + op.bytes.length)) ∧
      b'.front = b.front ∧ b'.mem = pre ++ (op.cut ++ (file ++ 0 :: post)) := by
  have hcut : b.mem = (pre ++ op.bytes) ++ (file ++ 0 :: post) := by
    rw [hmem, List.append_assoc]
  rw [← List.append_assoc] at h0
  obtain ⟨b', hscan, hfront, hmem'⟩ := scan_op op hmem hpre
  refine ⟨b', ?_, hfront, hmem'⟩
  rw [checkRedir_eq_scan hcut h0 hfile, List.length_append, hscan, Option.bind_some,
    if_pos (Int.natCast_nonneg _), Int.toNat_natCast]

/-- The same where the last operator is known by its last byte, which is not a
`'>'` at the beginning. -/
theorem checkRedir_last (hmem : b.mem = pre ++ c :: (file ++ 0 :: post))
    (h0 : 0 ∉ pre ++ c :: file) (hc : operator c) (hfile : ∀ x ∈ file, ¬ operator x)
    (hpre : c = gt → pre ≠ []) :
    ∃ b' : Block n, checkRedir b =
        some (b', redirAt (pre ++ c :: file) pre.length, some (pre.length + 1)) ∧
      b'.front = b.front ∧
      b'.mem = (pre ++ c :: file).set (operatorStart (pre ++ c :: file) pre.length) 0 ++
        0 :: post := by
  obtain ⟨op, start, hstart, hbehind, hop⟩ := exists_op hc hpre
  obtain ⟨hredir, hat⟩ := hop file
  have hcut (rest : List UInt8) : pre ++ c :: rest = start ++ (op.bytes ++ rest) := by
    rw [← List.append_assoc, ← hstart, List.append_assoc]
    rfl
  have hlen : pre.length + 1 = start.length + op.bytes.length := by
    rw [← List.length_append, ← hstart, List.length_append]
    rfl
  rw [hcut] at hmem h0
  obtain ⟨b', hcheck, hfront, hmem'⟩ := checkRedir_op op hmem h0 hfile hbehind
  refine ⟨b', ?_, hfront, ?_⟩
  · rw [hcheck, hredir, hlen]
  · rw [hmem', hat, hcut, op.set_bytes, List.append_assoc, List.append_assoc]

/-- At a `'>'` at the beginning the byte in front of the string is looked at:
the code asks for `b[end-1]` without asking whether `end` is zero. -/
theorem scan_first (hmem : b.mem = gt :: post) :
    scan b 1 = (b.load (((0 : ℕ) : ℤ) - 1)).bind fun before =>
      if before = gt then
        (b.store (((0 : ℕ) : ℤ) - 1) 0).bind fun b => some (b, .append, ((0 : ℕ) : ℤ) + 1)
      else (b.store ((0 : ℕ) : ℤ) 0).bind fun b => some (b, .output, ((0 : ℕ) : ℤ) + 1) := by
  have hmem₁ : b.mem = [] ++ gt :: post := hmem
  have hload : b.load ((0 : ℕ) : ℤ) = some gt := Block.load_eq hmem₁ rfl
  show (b.load _).bind _ = _
  rw [hload, Option.bind_some, if_pos rfl]
  rfl

/-- **A `'>'` at the beginning** makes the scan look in front of the string.
If nothing may be looked at there, nothing comes of it; a `'>'` there is
overwritten and the string stays; any other byte lets the string end at
once. -/
theorem checkRedir_first (hmem : b.mem = gt :: (file ++ 0 :: post)) (h0 : 0 ∉ gt :: file)
    (hfile : ∀ x ∈ file, ¬ operator x) :
    match b.front with
    | [] => checkRedir b = none
    | x :: rest =>
      if x = gt then ∃ b' : Block n, checkRedir b = some (b', .append, some 1) ∧
        b'.front = 0 :: rest ∧ b'.mem = b.mem
      else ∃ b' : Block n, checkRedir b = some (b', .output, some 1) ∧ b'.front = b.front ∧
        b'.mem = 0 :: (file ++ 0 :: post) := by
  have hcut : b.mem = [gt] ++ (file ++ 0 :: post) := hmem
  have hcheck := checkRedir_eq_scan hcut h0 hfile
  rw [List.length_singleton, scan_first hmem] at hcheck
  cases hfront : b.front with
  | nil =>
    have hload : b.load (((0 : ℕ) : ℤ) - 1) = none := by
      show b.front[0]? = none
      rw [hfront]
      rfl
    rw [hload] at hcheck
    exact hcheck
  | cons x rest =>
    have hload : b.load (((0 : ℕ) : ℤ) - 1) = some x := by
      show b.front[0]? = some x
      rw [hfront]
      rfl
    rw [hload, Option.bind_some] at hcheck
    dsimp only
    split_ifs at hcheck ⊢ with hx
    · have hstore : b.store (((0 : ℕ) : ℤ) - 1) 0 = some { b with front := 0 :: rest } := by
        show (if 0 < b.front.length then some { b with front := b.front.set 0 0 } else none) = _
        rw [hfront]
        rfl
      rw [hstore] at hcheck
      exact ⟨{ b with front := 0 :: rest }, hcheck, rfl, rfl⟩
    · have hmem₁ : b.mem = [] ++ gt :: (file ++ 0 :: post) := hmem
      obtain ⟨b', hstore, hfront', hmem'⟩ := Block.store_eq (a := 0) hmem₁ rfl 0
      rw [hstore] at hcheck
      exact ⟨b', hcheck, hfront'.trans hfront, hmem'⟩

end checkRedir

/-! ### A string and nothing else -/

/-- Memory that consists of a string and its terminator. -/
def exactly (s : List UInt8) : Block (s.length + 1) := ⟨[], s ++ [0], List.length_append⟩

/-- `CheckRedir` splits a string at its last operator and touches nothing else:
neither a byte outside the string and its terminator, nor any byte of it but
the first one of the operator. -/
structure Splits (s : List UInt8) : Prop where
  clean : (∀ c ∈ s, ¬ operator c) → checkRedir (exactly s) = some (exactly s, .none, none)
  last : ∀ i, LastAt s i → ∃ b, checkRedir (exactly s) = some (b, redirAt s i, some (i + 1)) ∧
    b.mem = (s ++ [0]).set (operatorStart s i) 0 ∧
    b.string 0 = some (s.take (operatorStart s i)) ∧ b.string (i + 1) = some (s.drop (i + 1))

/-- An operator does not begin behind its last byte. -/
theorem operatorStart_le (s : List UInt8) (i : ℕ) : operatorStart s i ≤ i := by
  unfold operatorStart
  split_ifs <;> omega

/-- The two strings that are left after the first byte of the operator was
overwritten: what is in front of the operator, and the file name. -/
theorem strings_of_set {s : List UInt8} (h0 : 0 ∉ s) {i : ℕ} (hi : i < s.length)
    {b : Block (s.length + 1)} (hmem : b.mem = (s ++ [0]).set (operatorStart s i) 0) :
    b.string 0 = some (s.take (operatorStart s i)) ∧ b.string (i + 1) = some (s.drop (i + 1)) := by
  have hle := operatorStart_le s i
  have hlt : operatorStart s i < s.length := by omega
  have hset : b.mem = s.take (operatorStart s i) ++
      0 :: (s.drop (operatorStart s i + 1) ++ [0]) := by
    rw [hmem, List.set_append_left _ _ hlt, List.set_eq_take_append_cons_drop, if_pos hlt]
    simp
  constructor
  · have hwhole : b.mem = [] ++ (s.take (operatorStart s i) ++
        0 :: (s.drop (operatorStart s i + 1) ++ [0])) := hset
    exact Block.string_eq hwhole rfl fun h => h0 (List.mem_of_mem_take h)
  · have hlen : i + 1 = ((s ++ [0]).set (operatorStart s i) 0 |>.take (i + 1)).length := by
      rw [List.length_take, List.length_set, List.length_append, List.length_singleton]
      omega
    have hdrop : ((s ++ [0]).set (operatorStart s i) 0).drop (i + 1) = s.drop (i + 1) ++ [0] := by
      rw [List.drop_set_of_lt (by omega), List.drop_append_of_le_length (by omega)]
    have hcut : b.mem = ((s ++ [0]).set (operatorStart s i) 0).take (i + 1) ++
        (s.drop (i + 1) ++ 0 :: []) := by
      rw [hmem, ← hdrop, List.take_append_drop]
    exact Block.string_eq hcut hlen fun h => h0 (List.mem_of_mem_drop h)

/-- **Exactly when `CheckRedir` splits a string and touches nothing else:**
unless its last operator is a `'>'` at its beginning.  Any string without zero
bytes, of any length, may be given. -/
theorem splits_iff (s : List UInt8) (h0 : 0 ∉ s) :
    Splits s ↔ ¬ (LastAt s 0 ∧ s[0]? = some gt) := by
  constructor
  · rintro h ⟨hlast, hgt⟩
    obtain ⟨b, hcheck, -⟩ := h.last 0 hlast
    obtain ⟨pre, c, file, rfl, hpre, -, hfile⟩ := hlast.exists_cut
    obtain rfl := List.length_eq_zero_iff.1 hpre
    obtain rfl : c = gt := Option.some.inj hgt
    have hmem : (exactly ([] ++ gt :: file)).mem = gt :: (file ++ 0 :: []) := rfl
    have hnone : checkRedir (exactly ([] ++ gt :: file)) = none :=
      checkRedir_first hmem h0 hfile
    rw [hnone] at hcheck
    cases hcheck
  · intro hexc
    have hmem : (exactly s).mem = s ++ 0 :: [] := rfl
    refine ⟨fun hclean => checkRedir_clean hmem h0 hclean, fun i hlast => ?_⟩
    obtain ⟨pre, c, file, hs, rfl, hc, hfile⟩ := hlast.exists_cut
    have hpre : c = gt → pre ≠ [] := by
      rintro rfl rfl
      exact hexc ⟨hlast, by rw [hs]; rfl⟩
    have hcut : (exactly s).mem = pre ++ c :: (file ++ 0 :: []) := by
      rw [hmem, hs]
      simp
    obtain ⟨b, hcheck, -, hb⟩ := checkRedir_last hcut (by rw [← hs]; exact h0) hc hfile hpre
    rw [← hs] at hcheck hb
    have hi : pre.length < s.length := by
      rw [hs, List.length_append, List.length_cons]
      omega
    have hset : b.mem = (s ++ [0]).set (operatorStart s pre.length) 0 := by
      have hle := operatorStart_le s pre.length
      rw [hb, List.set_append_left _ _ (by omega)]
    exact ⟨b, hcheck, hset, strings_of_set h0 hi hset⟩

/-- `ls>>f` is split behind `ls`, and `f` is the file. -/
theorem splits_iff_append : Splits [108, 115, 62, 62, 102] ∧
    redirAt [108, 115, 62, 62, 102] 3 = .append ∧ operatorStart [108, 115, 62, 62, 102] 3 = 2 :=
  ⟨(splits_iff [108, 115, 62, 62, 102] (by decide)).2 fun h => absurd h.2 (by decide), by decide,
    by decide⟩

/-- **`>f` is not split:** the byte in front of the string is looked at, and
overwritten if it is a `'>'`. -/
theorem first_byte_reads_before : LastAt [62, 102] 0 ∧ checkRedir (exactly [62, 102]) = none ∧
    ¬ Splits [62, 102] ∧
    ∃ b : Block 3, checkRedir (⟨[62], [62, 102, 0], rfl⟩ : Block 3) = some (b, .append, some 1) ∧
      b.front = [0] := by
  have hlast : LastAt [62, 102] 0 := by
    refine @lastAt_cut [] [102] 62 (by decide) fun x hx => ?_
    rw [List.mem_singleton.1 hx]
    decide
  have hnone : checkRedir (exactly [62, 102]) = none := rfl
  refine ⟨hlast, hnone, fun h => ?_, ⟨[0], [62, 102, 0], rfl⟩, rfl, rfl⟩
  obtain ⟨b, hcheck, -⟩ := h.last 0 hlast
  rw [hnone] at hcheck
  cases hcheck

end Shell
end OSNetWorkCode
