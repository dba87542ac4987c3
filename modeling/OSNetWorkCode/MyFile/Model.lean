/-
# `MyFILE`: a stream with a buffer in user space

`1017/myfile.c`.  `fputs_` copies a message behind what is in `buffer` and, for
descriptor 1 and a message that ends in a newline, hands the buffer to `write`;
`fflush_` hands it to `write` whatever the descriptor; `fclose_` flushes,
closes and frees.  Neither looks at what `write` returns: that is an argument
here (`Written`).

In `MyFILE_` the array `buffer` lies behind `fd`, so `buffer[end-1]` is a byte
of `fd` where `end` is `0`.  A copy that does not fit into the array is `none`.
What `fputs_` prints for debugging and `syncfs` are left out.
-/

import OSNetWorkCode.Lib.Block
import OSNetWorkCode.Lib.Word

namespace OSNetWorkCode
namespace MyFile

/-- `NUM`. -/
def num : ℕ := 1024

/-- The character `'\n'`. -/
def newline : UInt8 := 10

/-- A C string, without its terminator. -/
structure Message where
  bytes : List UInt8
  nulFree : 0 ∉ bytes

/-- `struct MyFILE_`: an `int` in front of the buffer, and the end of what is
in it. -/
structure MyFILE where
  fd : UInt32
  buffer : Block num
  layout : buffer.front = (Word.encode fd).reverse
  end_ : ℕ

/-- What `write` comes to: `-1`, or how many bytes the kernel accepted. -/
inductive Written
  | failed
  | count (k : ℕ)

/-- The bytes the kernel accepted. -/
def Written.amount : Written → ℕ
  | .failed => 0
  | .count k => k

/-- A stream, and the bytes that the kernel has accepted from it. -/
structure World where
  fp : MyFILE
  kernel : List UInt8

/-- `memset(fp, 0, sizeof(MyFILE))` and `fp->fd = fd`. -/
def MyFILE.zeroed (fd : UInt32) : MyFILE :=
  ⟨fd, ⟨(Word.encode fd).reverse, List.replicate num 0, List.length_replicate⟩, rfl, 0⟩

/-- `fopen_`; `opened` is what `open` returns, if it does not fail. -/
def fopen (mode : String) (opened : Option UInt32) : Option MyFILE :=
  match mode with
  | "r" => none
  | "r+" => none
  | "w" => opened.map MyFILE.zeroed
  | "w+" => none
  | "a" => none
  | "a+" => none
  | _ => none

/-- The bytes `buffer[0 .. end)`. -/
def MyFILE.pending (fp : MyFILE) : List UInt8 := fp.buffer.mem.take fp.end_

/-- `write(fp->fd, fp->buffer, fp->end)`. -/
def World.write (w : World) (r : Written) : World :=
  { w with kernel := w.kernel ++ w.fp.pending.take r.amount }

/-- `strcpy(fp->buffer + fp->end, message); fp->end += strlen(message)`. -/
def MyFILE.append (fp : MyFILE) (message : Message) : Option MyFILE :=
  match h : fp.buffer.copy fp.end_ (message.bytes ++ [0]) with
  | some buffer =>
    some ⟨fp.fd, buffer, by
      unfold Block.copy at h
      split_ifs at h
      obtain rfl := Option.some.inj h
      exact fp.layout, fp.end_ + message.bytes.length⟩
  | none => none

/-- The branches of `fputs_` on the descriptor: only standard output is
flushed, at the end of a line. -/
def World.flushLine (r : Written) (w : World) : Option World :=
  if w.fp.fd = 0 then
    some w
  else if w.fp.fd = 1 then
    match w.fp.buffer.load ((w.fp.end_ : ℤ) - 1) with
    -- `end` stays where it is
    | some last => if last = newline then some (w.write r) else some w
    | none => none
  else if w.fp.fd = 2 then
    some w
  else
    some w

/-- `fputs_`. -/
def World.fputs (message : Message) (r : Written) (w : World) : Option World :=
  match w.fp.append message with
  | some fp => World.flushLine r { w with fp := fp }
  | none => none

/-- `fflush_`. -/
def World.fflush (r : Written) (w : World) : World :=
  if w.fp.end_ ≠ 0 then
    { w.write r with fp := { w.fp with end_ := 0 } }
  else w

/-- `fclose_`: the stream is gone, and this is what the kernel has accepted. -/
def World.fclose (r : Written) (w : World) : List UInt8 := (w.fflush r).kernel

/-- A call on a stream, with what `write` will make of it. -/
inductive Call
  | fputs (message : Message) (r : Written)
  | fflush (r : Written)

/-- A call is made. -/
def Call.run : Call → World → Option World
  | .fputs message r, w => w.fputs message r
  | .fflush r, w => some (w.fflush r)

/-- The message fits into the free part of the buffer, with its terminator. -/
def Call.Fits : Call → World → Prop
  | .fputs message _, w => w.fp.end_ + message.bytes.length < num
  | .fflush _, _ => True

/-- Calls, one after the other. -/
def World.after (w : World) (calls : List Call) : Option World :=
  calls.foldlM (fun w c => c.run w) w

/-- Each message fits when its turn comes. -/
def Fits : World → List Call → Prop
  | _, [] => True
  | w, c :: calls => c.Fits w ∧ ∀ w', c.run w = some w' → Fits w' calls

/-- What a call adds to the stream. -/
def Call.says : Call → List UInt8
  | .fputs message _ => message.bytes
  | .fflush _ => []

/-- All messages passed to `fputs_`. -/
def said (calls : List Call) : List UInt8 := calls.flatMap Call.says

/-- A stream just opened under any descriptor. -/
def World.opened (fd : UInt32) : World := ⟨.zeroed fd, []⟩

/-- It is the one that `fopen_` returns, in the only mode in which it returns
any. -/
example (fd : UInt32) : fopen "w" (some fd) = some (World.opened fd).fp := rfl

end MyFile
end OSNetWorkCode
