/-
# Tables of descriptors

A process's table of descriptors: at each number an open file or nothing.  A
new file gets the lowest number that is free, as POSIX has it; closing a number
frees it for the next file, and `dup2` puts a file that is open at a second
number.  `fork` copies the table, so a table is a value like any other.

What a table has open after a call is said by `get_openLowest_iff`,
`get_close_iff` and `get_dup2`; nothing else about the representation is used.
`Only` says of one file that it is open under one number, or not at all, and
each call has a rule for it.

A process that forks makes children one after the other, so that they can be
numbered.  What is said of all of them is kept by rules of its own
(`forall_forked`, `forall_children`): for one that is added, and for one that
changes.
-/

import Mathlib.Data.List.Basic
import Mathlib.Data.Nat.Notation
import Mathlib.Logic.Function.Basic

namespace OSNetWorkCode

/-- A table of descriptors for open files of type `F`. -/
abbrev FdTable (F : Type*) := List (Option F)

namespace FdTable

variable {F : Type*}

/-- The file open at `fd`. -/
def get (t : FdTable F) (fd : ℕ) : Option F := (t[fd]?).join

/-- The lowest free number. -/
def lowest : FdTable F → ℕ
  | [] => 0
  | none :: _ => 0
  | some _ :: t => lowest t + 1

/-- `f` opened at the lowest free number. -/
def openLowest : FdTable F → F → FdTable F
  | [], f => [some f]
  | none :: t, f => some f :: t
  | some g :: t, f => some g :: openLowest t f

/-- `close(fd)`. -/
def close (t : FdTable F) (fd : ℕ) : FdTable F := t.set fd none

/-- `f` open at `fd`, whatever was. -/
def put : FdTable F → ℕ → F → FdTable F
  | [], 0, f => [some f]
  | _ :: t, 0, f => some f :: t
  | [], fd + 1, f => none :: put [] fd f
  | o :: t, fd + 1, f => o :: put t fd f

/-- `dup2(old, fd)`; it fails where `old` is not open. -/
def dup2 (t : FdTable F) (old fd : ℕ) : FdTable F :=
  match t.get old with
  | some f => t.put fd f
  | none => t

/-- The table of a process that is no more. -/
def empty : FdTable F := []

/-- The table has `f` open, under some number. -/
def Holds (t : FdTable F) (f : F) : Prop := ∃ fd, t.get fd = some f

/-- Whether a file is open somewhere can be computed: the table is searched. -/
instance [DecidableEq F] (t : FdTable F) (f : F) : Decidable (t.Holds f) :=
  decidable_of_iff (some f ∈ t) (by
    rw [List.mem_iff_getElem?]
    refine exists_congr fun fd => ?_
    unfold get
    cases t[fd]? with
    | none => simp
    | some o => simp)

/-- Nothing is open in the table of a process that is no more, under any
number. -/
@[simp] theorem get_empty (fd : ℕ) : (empty : FdTable F).get fd = none := rfl

/-- A process that is no more holds no file.  Its end of a pipe is closed by
its exit, whatever it left open. -/
theorem not_holds_empty (f : F) : ¬(empty : FdTable F).Holds f := by
  rintro ⟨fd, h⟩
  cases h

/-- The lowest free number is free: opening a file there overwrites none.  The
number behind the end of the table counts as free too. -/
theorem get_lowest (t : FdTable F) : t.get t.lowest = none := by
  induction t with
  | nil => rfl
  | cons o t ih =>
    cases o with
    | none => rfl
    | some g => simpa [get, lowest] using ih

/-- The numbers below are not free, so that the lowest free number is
determined by what is open. -/
theorem get_of_lt_lowest {t : FdTable F} {fd : ℕ} (h : fd < t.lowest) : t.get fd ≠ none := by
  induction t generalizing fd with
  | nil => exact absurd h (Nat.not_lt_zero fd)
  | cons o t ih =>
    rcases o with _ | g
    · exact absurd h (Nat.not_lt_zero fd)
    · rcases fd with _ | fd
      · nofun
      · exact ih (Nat.lt_of_succ_lt_succ h)

/-- Tables with the same open files have the same lowest free number, though
one of them may be longer.  So parent and child, or two ways of writing a table
down, give a new file the same number. -/
theorem lowest_congr {t u : FdTable F} (h : ∀ fd, t.get fd = u.get fd) : t.lowest = u.lowest := by
  refine Nat.le_antisymm (Nat.le_of_not_lt fun hlt => ?_) (Nat.le_of_not_lt fun hlt => ?_)
  · exact get_of_lt_lowest hlt ((h _).trans (get_lowest u))
  · exact get_of_lt_lowest hlt ((h _).symm.trans (get_lowest t))

/-- Opening a file changes the table at the lowest free number only.  What had
a number before keeps it. -/
theorem get_openLowest (t : FdTable F) (f : F) (fd : ℕ) :
    (t.openLowest f).get fd = if fd = t.lowest then some f else t.get fd := by
  induction t generalizing fd with
  | nil => cases fd <;> rfl
  | cons o t ih =>
    rcases o with _ | g
    · cases fd <;> rfl
    · rcases fd with _ | fd
      · rfl
      · simpa [get, openLowest, lowest] using ih fd

/-- **What is open once a file was opened.**  Either it is the new file at its
number, or it was open before under the same number. -/
theorem get_openLowest_iff (t : FdTable F) (f g : F) (fd : ℕ) :
    (t.openLowest f).get fd = some g ↔ (fd = t.lowest ∧ g = f) ∨ t.get fd = some g := by
  rw [get_openLowest]
  by_cases h : fd = t.lowest
  · subst h
    simp [get_lowest, eq_comm]
  · simp [h]

/-- Closing a number changes the table at that number only.  Closing what is
not open changes nothing at all. -/
theorem get_close (t : FdTable F) (fd fd' : ℕ) :
    (t.close fd).get fd' = if fd' = fd then none else t.get fd' := by
  unfold get close
  by_cases h : fd' = fd
  · subst h
    rw [if_pos rfl, List.getElem?_set, if_pos rfl]
    split_ifs <;> rfl
  · rw [if_neg h, List.getElem?_set_ne (Ne.symm h)]

/-- **What is open once a number was closed:** what was open before under
another number.  Nothing is opened by a close, and nothing is closed under a
second number. -/
theorem get_close_iff (t : FdTable F) (fd fd' : ℕ) (g : F) :
    (t.close fd).get fd' = some g ↔ fd' ≠ fd ∧ t.get fd' = some g := by
  rw [get_close]
  split_ifs with h
  · simp [h]
  · simp [h]

/-- Where a file is put under a number the table changes at that number only,
also where the number lies behind the end of the table. -/
theorem get_put (t : FdTable F) (fd : ℕ) (f : F) (fd' : ℕ) :
    (t.put fd f).get fd' = if fd' = fd then some f else t.get fd' := by
  fun_induction put t fd f generalizing fd' with
  | case1 f => cases fd' <;> rfl
  | case2 o t f => cases fd' <;> rfl
  | case3 fd f ih =>
    rcases fd' with _ | fd'
    · rfl
    · simpa [get] using ih fd'
  | case4 o t fd f ih =>
    rcases fd' with _ | fd'
    · rfl
    · simpa [get] using ih fd'

/-- **A duplicate stands for the same file;** nothing else changes.  What was
open under the second number is closed by it. -/
theorem get_dup2 {t : FdTable F} {old : ℕ} {f : F} (h : t.get old = some f) (fd fd' : ℕ) :
    (t.dup2 old fd).get fd' = if fd' = fd then some f else t.get fd' := by
  unfold dup2
  rw [h]
  exact get_put t fd f fd'

/-! ### One file, under one number -/

/-- `f` is open under `fd` and no other number if `p`, and not open
otherwise. -/
def Only (t : FdTable F) (f : F) (p : Prop) (fd : ℕ) : Prop :=
  ∀ fd', t.get fd' = some f ↔ p ∧ fd' = fd

section only

variable {t : FdTable F} {f g : F} {p q : Prop} {fd fd' : ℕ}

/-- The condition may be replaced by an equivalent one: it says when the file
is open and not how that is written. -/
theorem Only.congr (h : t.Only f p fd) (hpq : p ↔ q) : t.Only f q fd := fun fd' => by
  rw [h fd', hpq]

/-- The number of a file that is not open says nothing, so that any other may
be named in its place. -/
theorem Only.move (h : t.Only f p fd) (hp : ¬p) (fd' : ℕ) : t.Only f p fd' := fun fd'' => by
  rw [h fd'']
  exact iff_of_false (fun h => hp h.1) fun h => hp h.1

/-- A file that is open under one number or not at all is held exactly under
the condition. -/
theorem Only.holds_iff (h : t.Only f p fd) : t.Holds f ↔ p := by
  constructor
  · rintro ⟨fd', hfd⟩
    exact ((h fd').1 hfd).1
  · exact fun hp => ⟨fd, (h fd).2 ⟨hp, rfl⟩⟩

/-- The table of a process that is no more has the file open under no
number. -/
theorem only_empty (f : F) (hp : ¬p) (fd : ℕ) : (empty : FdTable F).Only f p fd := fun _ =>
  iff_of_false nofun fun h => hp h.1

/-- A file that was open nowhere is open under the lowest free number now, and
under no other: the call that opens it gives it one number. -/
theorem Only.opened (h : t.Only f p fd) (hp : ¬p) (hq : q) :
    (t.openLowest f).Only f q t.lowest := fun fd' => by
  have hnot : t.get fd' ≠ some f := fun hfd => hp ((h fd').1 hfd).1
  rw [get_openLowest_iff]
  simp [hnot, hq]

/-- Opening another file keeps the number of a file, since only the lowest free
number changes. -/
theorem Only.openLowest (h : t.Only f p fd) (hne : f ≠ g) : (t.openLowest g).Only f p fd :=
  fun fd' => by
    rw [get_openLowest_iff, h fd']
    simp [hne]

/-- A file that is closed under the one number it has is open no more. -/
theorem Only.closed (h : t.Only f p fd) (hq : ¬q) : (t.close fd).Only f q fd := fun fd' => by
  rw [get_close_iff, h fd']
  exact iff_of_false (fun h => h.1 h.2.2) fun h => hq h.1

/-- Closing another file's number leaves a file open: the two numbers differ,
since one number stands for one file. -/
theorem Only.close (h : t.Only f p fd) (hg : t.get fd' = some g) (hne : f ≠ g) :
    (t.close fd').Only f p fd := fun fd'' => by
  rw [get_close_iff, h fd'']
  refine ⟨fun h => h.2, fun hfd => ⟨?_, hfd⟩⟩
  rintro rfl
  exact hne (Option.some.inj (((h fd'').2 hfd).symm.trans hg))

end only

/-- Closing opens nothing: a file that is held after a close was held before
it. -/
theorem Holds.of_close {t : FdTable F} {fd : ℕ} {f : F} (h : (t.close fd).Holds f) : t.Holds f := by
  obtain ⟨fd', hfd⟩ := h
  exact ⟨fd', ((get_close_iff t fd fd' f).1 hfd).2⟩

/-! ### Processes, numbered in the order in which they are made -/

section forked

variable {C : Type*} {n j : ℕ} {children : ℕ → C} {c : C} {P : ℕ → C → Prop}

/-- What holds of child `j` as it is now and of the others as they were holds
of all. -/
theorem forall_children (hother : ∀ k < n, k ≠ j → P k (children k)) (hself : P j c) :
    ∀ k < n, P k (Function.update children j c k) :=
  (Function.forall_update_iff children fun k c => k < n → P k c).2
    ⟨fun _ => hself, fun k hne hk => hother k hk hne⟩

/-- What held of the children there were, and holds of the new one, holds of
all there are now. -/
theorem forall_forked (hold : ∀ j < n, P j (children j)) (hnew : P n c) :
    ∀ j < n + 1, P j (Function.update children n c j) :=
  forall_children (fun j hj hne => hold j (by omega)) hnew

end forked

end FdTable
end OSNetWorkCode
