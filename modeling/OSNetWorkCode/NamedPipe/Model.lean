/-
# One writer and several readers on a FIFO

`1126/fifo`.  `client.cc` writes each line it gets into the FIFO, without its
newline and with nothing else.  `server.cc` forks readers that share one end of
it; each of them runs `getMessage`: clear the buffer, read up to `SIZE - 1`
bytes, print the buffer as a string, until a read finds the end of the file.
The client does not leave its loop; its end of the FIFO is closed when it is
killed.

A write and a read are one step each, and neither fails; the FIFO takes
whatever is written.  What every read returned is recorded (`taken`), with the
reader, and so is what is printed.
-/

import OSNetWorkCode.Lib.CString
import OSNetWorkCode.Lib.Stream
import OSNetWorkCode.Lib.Transition
import Mathlib.Logic.Function.Basic

namespace OSNetWorkCode
namespace NamedPipe

open CString

/-- `SIZE`. -/
def size : ℕ := 128

/-- A line that fits into the buffer of a reader. -/
structure Line where
  bytes : List UInt8
  ne_nil : bytes ≠ []
  zero : 0 ∉ bytes
  fits : bytes.length ≤ size - 1

/-- The buffer after `memset` and a `read` that returned `bytes`. -/
def fill (bytes : List UInt8) : List UInt8 := blit bytes (List.replicate size 0)

/-- Where a reader stands. -/
inductive Reader
  | read
  /-- `read` returned more than `0`. -/
  | print (buffer : List UInt8)
  /-- `read` returned `0`. -/
  | done
  deriving DecidableEq

/-- How often the reader is about to print `message`. -/
def Reader.pending (message : List UInt8) : Reader → ℕ
  | .print buffer => if text buffer = message then 1 else 0
  | _ => 0

/-- The lines not yet typed, the bytes in the FIFO, whether the client's end of
it is open, the readers, and the records. -/
structure State (R : Type*) where
  lines : List Line
  fifo : List UInt8
  writer : Bool
  readers : R → Reader
  taken : List (R × List UInt8)
  printed : List (R × List UInt8)

/-- Whose turn it is, and what for. -/
inductive Action (R : Type*)
  | write
  /-- The client is killed. -/
  | kill
  | read (r : R)
  | print (r : R)

section step

variable {R : Type*} [DecidableEq R]

/-- Reader `r` goes on to `p`. -/
def State.put (s : State R) (r : R) (p : Reader) : State R :=
  { s with readers := Function.update s.readers r p }

section simp

variable (s : State R) (r : R) (p : Reader)

/-- It changes where that reader stands, and nobody else. -/
@[simp] theorem State.put_lines : (s.put r p).lines = s.lines := rfl
/-- And it leaves the record of what was taken. -/
@[simp] theorem State.put_readers : (s.put r p).readers = Function.update s.readers r p := rfl
@[simp] theorem State.put_taken : (s.put r p).taken = s.taken := rfl

end simp

/-- One step of the client or a reader. -/
def State.step (s : State R) : Action R → Option (State R)
  | .write =>
    match s.writer, s.lines with
    | true, line :: lines => some { s with lines := lines, fifo := s.fifo ++ line.bytes }
    | _, _ => none
  | .kill => if s.writer then some { s with writer := false } else none
  | .read r =>
    match s.readers r with
    | .read =>
      if s.fifo = [] then
        if s.writer then none else some (s.put r .done)
      else
        let bytes := s.fifo.take (size - 1)
        some { s.put r (.print (fill bytes)) with
          fifo := s.fifo.drop (size - 1), taken := s.taken ++ [(r, bytes)] }
    | _ => none
  | .print r =>
    match s.readers r with
    | .print buffer => some { s.put r .read with printed := s.printed ++ [(r, text buffer)] }
    | _ => none

/-- The readers are about to enter their loops, and nothing is typed yet. -/
def start (lines : List Line) : State R := ⟨lines, [], true, fun _ => .read, [], []⟩

/-- The runs in which every step is one that `ok` admits. -/
def sys (ok : State R → Action R → Bool) (lines : List Line) : System (State R) :=
  System.along (fun s => s = start lines) State.step ok

/-- All runs of any readers on the lines that are typed. -/
def runs (R : Type*) [DecidableEq R] (lines : List Line) : System (State R) :=
  sys System.anything lines

/-- The client writes only while the number of bytes in the FIFO is a multiple
of what a reader takes, for instance none. -/
def inTime (s : State R) : Action R → Bool
  | .write => s.fifo.length % (size - 1) = 0
  | _ => true

/-- The steps, listed. -/
inductive Steps (s : State R) : Action R → State R → Prop
  | write {line lines} (hw : s.writer = true) (hl : s.lines = line :: lines) :
      Steps s .write { s with lines := lines, fifo := s.fifo ++ line.bytes }
  | kill (hw : s.writer = true) : Steps s .kill { s with writer := false }
  | read {r} (hr : s.readers r = .read) (hf : s.fifo ≠ []) :
      Steps s (.read r) { s.put r (.print (fill (s.fifo.take (size - 1)))) with
        fifo := s.fifo.drop (size - 1), taken := s.taken ++ [(r, s.fifo.take (size - 1))] }
  | eof {r} (hr : s.readers r = .read) (hf : s.fifo = []) (hw : s.writer = false) :
      Steps s (.read r) (s.put r .done)
  | print {r buffer} (hr : s.readers r = .print buffer) :
      Steps s (.print r) { s.put r .read with printed := s.printed ++ [(r, text buffer)] }

/-- **What `step` makes is one of the steps.**  The conditions under which an
action is possible are in the rules. -/
theorem steps {s s' : State R} {a : Action R} (h : s.step a = some s') : Steps s a s' := by
  cases a with
  | write =>
    simp only [State.step] at h
    split at h
    · rename_i line lines hw hl
      obtain rfl := Option.some.inj h
      exact .write hw hl
    · cases h
  | kill =>
    simp only [State.step] at h
    split_ifs at h with hw
    obtain rfl := Option.some.inj h
    exact .kill hw
  | read r =>
    simp only [State.step] at h
    split at h
    · rename_i hr
      split_ifs at h with hf hw
      · obtain rfl := Option.some.inj h
        exact .eof hr hf (Bool.eq_false_iff.2 hw)
      · obtain rfl := Option.some.inj h
        exact .read hr hf
    · cases h
  | print r =>
    simp only [State.step] at h
    split at h
    · rename_i buffer hr
      obtain rfl := Option.some.inj h
      exact .print hr
    · cases h

end step

/-- **What is read into the buffer is printed.**  A read leaves one byte of the
zeros at least. -/
theorem text_fill {bytes : List UInt8} (h : 0 ∉ bytes) : text (fill bytes) = bytes := by
  rw [fill, blit, List.drop_replicate]
  exact text_append_replicate h _

end NamedPipe
end OSNetWorkCode
