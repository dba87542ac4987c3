/-
# Files and open files

The files of a machine are its contents by path.  A process reads and writes
through descriptors; what a descriptor stands for, an open file, is kept by the
kernel and may be shared: by descriptors made by `dup2`, and by processes,
since `fork` copies a table of descriptors and not the open files.  An open
file is a `Stream`: the terminal, or a file that is read or written at a
position, or written at its end.

What is open under a descriptor is given by `Kernel.stream`; reading and
writing are those of the stream there.
-/

import OSNetWorkCode.Lib.FdTable
import Mathlib.Logic.Function.Basic

namespace OSNetWorkCode
namespace Unix

open Function

/-- The contents of the files, by path. -/
abbrev Files (P : Type*) := P → Option (List UInt8)

/-- The files, what was typed at the terminal and is not read yet, and what the
terminal shows. -/
structure World (P : Type*) where
  files : Files P
  input : List UInt8
  output : List UInt8

/-- An open file. -/
inductive Stream (P : Type*)
  | terminal
  | reading (p : P) (pos : ℕ)
  | writing (p : P) (pos : ℕ)
  /-- Opened with `O_APPEND`. -/
  | appending (p : P)
  deriving DecidableEq

/-- `bytes` written over `old` at a position; a gap in front of them is filled
with zeros. -/
def writeAt (old : List UInt8) (pos : ℕ) (bytes : List UInt8) : List UInt8 :=
  old.take pos ++ List.replicate (pos - old.length) 0 ++ bytes ++ old.drop (pos + bytes.length)

/-- Written at the end, bytes are appended, as with `O_APPEND`. -/
theorem writeAt_length (old bytes : List UInt8) :
    writeAt old old.length bytes = old ++ bytes := by
  rw [writeAt, List.take_length, Nat.sub_self, List.replicate_zero, List.append_nil,
    List.drop_of_length_le (Nat.le_add_right _ _), List.append_nil]

/-- The end of a line. -/
def eol : UInt8 := 10

/-- The terminal hands out a line at a time, with its newline. -/
def line (input : List UInt8) : List UInt8 := input.take (input.idxOf eol + 1)

namespace Stream

variable {P : Type*}

/-- `read`, up to `n` bytes: what it returns, the stream then, and the
world. -/
def read (s : Stream P) (n : ℕ) (w : World P) : Option (List UInt8) × Stream P × World P :=
  match s with
  | .terminal =>
    let bytes := (line w.input).take n
    (some bytes, .terminal, { w with input := w.input.drop bytes.length })
  | .reading p pos =>
    let bytes := (((w.files p).getD []).drop pos).take n
    (some bytes, .reading p (pos + bytes.length), w)
  | .writing .. | .appending _ => (none, s, w)

/-- `write`: how many bytes it took, the stream then, and the world. -/
def write [DecidableEq P] (s : Stream P) (bytes : List UInt8) (w : World P) :
    Option ℕ × Stream P × World P :=
  match s with
  | .terminal => (some bytes.length, .terminal, { w with output := w.output ++ bytes })
  | .writing p pos =>
    (some bytes.length, .writing p (pos + bytes.length),
      { w with files := update w.files p (some (writeAt ((w.files p).getD []) pos bytes)) })
  | .appending p =>
    (some bytes.length, .appending p,
      { w with files := update w.files p (some ((w.files p).getD [] ++ bytes)) })
  | .reading .. => (none, s, w)

/-- A stream without a position. -/
def Still : Stream P → Prop
  | .terminal | .appending _ => True
  | .reading .. | .writing .. => False

/-- Reading leaves a stream without a position as it is. -/
theorem Still.read {s : Stream P} (h : s.Still) (n : ℕ) (w : World P) :
    (s.read n w).2.1 = s := by
  cases s with
  | terminal | appending => rfl
  | reading | writing => exact h.elim

/-- So does writing.  Such a stream can be shared without one process getting
in the way of another. -/
theorem Still.write [DecidableEq P] {s : Stream P} (h : s.Still) (bytes : List UInt8) (w : World P) :
    (s.write bytes w).2.1 = s := by
  cases s with
  | terminal | appending => rfl
  | reading | writing => exact h.elim

end Stream

/-- The world, and all files opened so far; tables of descriptors refer to them
by number, also those of different processes. -/
structure Kernel (P : Type*) where
  world : World P
  opened : List (Stream P)

/-- How `open` is called here. -/
inductive Flags
  /-- `O_RDONLY`. -/
  | read
  /-- `O_WRONLY | O_TRUNC | O_CREAT`. -/
  | trunc
  /-- `O_WRONLY | O_APPEND | O_CREAT`. -/
  | append

/-- Which file a name stands for in a directory: one that may be read, or one
that is there or may be created and may be written. -/
structure Names (Dir P : Type*) where
  readable : Files P → Dir → List UInt8 → Option P
  writable : Files P → Dir → List UInt8 → Option P

section open_file

variable {Dir P : Type*} [DecidableEq P]

/-- The stream that `open` makes, and the files then; `none` where it fails. -/
def Names.openStream (names : Names Dir P) (flags : Flags) (dir : Dir) (name : List UInt8)
    (files : Files P) : Option (Stream P × Files P) :=
  match flags with
  | .read => (names.readable files dir name).map fun p => (.reading p 0, files)
  | .trunc =>
    (names.writable files dir name).map fun p => (.writing p 0, update files p (some []))
  | .append =>
    (names.writable files dir name).map fun p =>
      (.appending p, update files p (some ((files p).getD [])))

namespace Kernel

/-- What is open under a descriptor. -/
def stream (k : Kernel P) (t : FdTable ℕ) (fd : ℕ) : Option (Stream P) :=
  (t.get fd).bind (k.opened[·]?)

/-- `read(fd, buffer, n)` in a process with table `t`. -/
def read (k : Kernel P) (t : FdTable ℕ) (fd n : ℕ) : Option (List UInt8) × Kernel P :=
  match t.get fd with
  | none => (none, k)
  | some d =>
    match k.opened[d]? with
    | none => (none, k)
    | some s =>
      ((s.read n k.world).1, ⟨(s.read n k.world).2.2, k.opened.set d (s.read n k.world).2.1⟩)

/-- `write(fd, bytes)` in a process with table `t`. -/
def write (k : Kernel P) (t : FdTable ℕ) (fd : ℕ) (bytes : List UInt8) : Option ℕ × Kernel P :=
  match t.get fd with
  | none => (none, k)
  | some d =>
    match k.opened[d]? with
    | none => (none, k)
    | some s =>
      ((s.write bytes k.world).1,
        ⟨(s.write bytes k.world).2.2, k.opened.set d (s.write bytes k.world).2.1⟩)

/-- `open(name, flags)`: the descriptor, or `none` for `-1`. -/
def openFile (k : Kernel P) (names : Names Dir P) (flags : Flags) (dir : Dir) (name : List UInt8)
    (t : FdTable ℕ) : Option ℕ × FdTable ℕ × Kernel P :=
  match names.openStream flags dir name k.world.files with
  | some (s, files) =>
    (some t.lowest, t.openLowest k.opened.length,
      ⟨{ k.world with files := files }, k.opened ++ [s]⟩)
  | none => (none, t, k)

end Kernel

end open_file

end Unix
end OSNetWorkCode
