/-
# The line parser of the shell

`1017/shell/myshell.c`, from `memset` to the loop over `strtok`.  A line is
read into `cmd_line`; its last byte is overwritten; `CheckRedir` goes through
it from the right for a redirection, which it cuts off, and leaves its kind in
`redir_status`; then `strtok` cuts what is left at the spaces, and `g_argv`
collects where the words start.

The globals are the state (`Shell`), with the pointer that `strtok` keeps
between two calls among them.  A pointer into `cmd_line` is an index.  What
lies in front of `cmd_line` is part of its `Block`, for `CheckRedir` may look
there.  Everything is `none` where it touches memory that is neither of the
two, stores behind the end of `g_argv`, or gives `strcmp` a null pointer.
-/

import OSNetWorkCode.Lib.Block

namespace OSNetWorkCode
namespace Shell

/-- `NUM`. -/
def num : ℕ := 1024

/-- `SIZE`. -/
def size : ℕ := 32

/-- `SEP`. -/
def sep : UInt8 := 32

/-- The character `'<'`. -/
def lt : UInt8 := 60

/-- The character `'>'`. -/
def gt : UInt8 := 62

/-- The character `'\n'`. -/
def newline : UInt8 := 10

/-- `INPUT_REDIR`, `OUTPUT_REDIR`, `APPEND_REDIR` and `NONE_REDIR`. -/
inductive Redir
  | input
  | output
  | append
  | none
  deriving DecidableEq

/-- What an entry of `g_argv` may be. -/
inductive Ptr
  | null
  /-- A place in `cmd_line`. -/
  | cmd (i : ℕ)
  /-- The literal `"--color=auto"`. -/
  | color
  deriving DecidableEq

/-- `char *g_argv[SIZE]`, with all of its entries. -/
structure Argv where
  entries : List Ptr
  length_entries : entries.length = size

/-- `g_argv[idx] = p`. -/
def Argv.store (argv : Argv) (idx : ℕ) (p : Ptr) : Option Argv :=
  if idx < size then some ⟨argv.entries.set idx p, List.length_set.trans argv.length_entries⟩
  else none

/-- The globals of the shell, with the pointer that `strtok` keeps. -/
structure State where
  cmdLine : Block num
  argv : Argv
  redirStatus : Redir
  /-- Where the next call `strtok(NULL, SEP)` starts. -/
  save : ℕ

/-! ### Reading a line -/

/-- The first line of a stream, with its newline if it has one. -/
def firstLine (stream : List UInt8) : List UInt8 :=
  stream.takeWhile (· ≠ newline) ++ (stream.dropWhile (· ≠ newline)).take 1

/-- `fgets(b, n, stream)`, the new contents of `b` and what is left of the
stream; `none` for a null pointer. -/
def fgets {n : ℕ} (b : Block n) (stream : List UInt8) : Option (Block n × List UInt8) :=
  let bytes := (firstLine stream).take (n - 1)
  if h : bytes ≠ [] ∧ bytes.length < n then
    some (⟨b.front, CString.blit (bytes ++ [0]) b.mem, by
      have hlen : (bytes ++ [0]).length ≤ b.mem.length := by
        rw [b.length_mem, List.length_append]
        exact h.2
      exact (CString.length_blit hlen).trans b.length_mem⟩, stream.drop bytes.length)
  else none

/-- `memset(cmd_line, 0, sizeof cmd_line)` and `fgets`. -/
def readLine (s : State) (stream : List UInt8) : Option (State × List UInt8) :=
  let cleared : Block num := ⟨s.cmdLine.front, List.replicate num 0, List.length_replicate⟩
  (fgets cleared stream).map fun (b, rest) => ({ s with cmdLine := b }, rest)

/-- `cmd_line[strlen(cmd_line) - 1] = 0`. -/
def strip (b : Block num) : Option (Block num) := do
  let len ← b.strlen 0
  b.store ((len : ℤ) - 1) 0

/-! ### `CheckRedir` -/

/-- The loop of `CheckRedir` where `end` is one less than the number given: the
memory, `redir_status`, and where `end` is behind the loop. -/
def scan {n : ℕ} (b : Block n) : ℕ → Option (Block n × Redir × ℤ)
  | 0 => some (b, .none, -1)
  | e + 1 => do
    let c ← b.load e
    if c = gt then
      let before ← b.load ((e : ℤ) - 1)
      if before = gt then
        let b ← b.store ((e : ℤ) - 1) 0
        some (b, .append, (e : ℤ) + 1)
      else
        let b ← b.store e 0
        some (b, .output, (e : ℤ) + 1)
    else if c = lt then
      let b ← b.store e 0
      some (b, .input, (e : ℤ) + 1)
    else scan b e

/-- `CheckRedir(b)`: the memory, `redir_status`, and where the file name is, if
not `NULL`. -/
def checkRedir {n : ℕ} (b : Block n) : Option (Block n × Redir × Option ℕ) := do
  let len ← b.strlen 0
  let (b, redir, fin) ← scan b len
  some (b, redir, if 0 ≤ fin then some fin.toNat else none)

/-! ### Splitting -/

/-- `strtok(start, SEP)`, where `none` is `NULL`: the token, the pointer kept,
and the memory. -/
def strtok {n : ℕ} (start : Option ℕ) (save : ℕ) (b : Block n) :
    Option (Option ℕ × ℕ × Block n) := do
  let s := start.getD save
  let skip ← b.span (· == sep) s
  let token := s + skip
  let c ← b.load token
  if c = 0 then some (none, token, b)
  else
    let len ← b.span (fun c => c != sep && c != 0) token
    let stop := token + len
    let c ← b.load stop
    if c = 0 then some (some token, stop, b)
    else
      let b ← b.store stop 0
      some (some token, stop + 1, b)

/-- What `strtok` returns, as an entry of `g_argv`. -/
def Ptr.ofToken : Option ℕ → Ptr
  | none => .null
  | some i => .cmd i

/-- `g_argv[idx] = strtok(start, SEP)`. -/
def nextToken (start : Option ℕ) (idx : ℕ) (s : State) : Option (Option ℕ × State) := do
  let (token, save, b) ← strtok start s.save s.cmdLine
  let argv ← s.argv.store idx (.ofToken token)
  some (token, { s with cmdLine := b, argv := argv, save := save })

/-- `while (g_argv[idx++] = strtok(NULL, SEP))`, with the number of entries
that are left. -/
def fill : ℕ → ℕ → State → Option State
  | 0, _, _ => none
  | left + 1, idx, s => do
    let (token, s) ← nextToken none idx s
    match token with
    | some _ => fill left (idx + 1) s
    | none => some s

/-- `"ls"`. -/
def ls : List UInt8 := [108, 115]

/-- `"--color=auto"`. -/
def colorAuto : List UInt8 := [45, 45, 99, 111, 108, 111, 114, 61, 97, 117, 116, 111]

/-- From the first call of `strtok` to the end of the loop. -/
def split (s : State) : Option State := do
  let (token, s) ← nextToken (some 0) 0 s
  let first ← token
  let word ← s.cmdLine.string first
  if word = ls then
    let argv ← s.argv.store 1 .color
    fill (size - 2) 2 { s with argv := argv }
  else fill (size - 1) 1 s

/-- What is done with a line that was read: the new state and `sep`. -/
def parse (s : State) : Option (State × Option ℕ) := do
  let b ← strip s.cmdLine
  let (b, redir, file) ← checkRedir b
  let s ← split { s with cmdLine := b, redirStatus := redir }
  some (s, file)

/-- The string that an entry of `g_argv` points to. -/
def State.string (s : State) : Ptr → Option (List UInt8)
  | .null => none
  | .cmd i => s.cmdLine.string i
  | .color => some colorAuto

end Shell
end OSNetWorkCode
