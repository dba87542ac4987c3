/-
# The loop of the shell

`main` of `1017/shell/myshell.c`, round after round: prompt, fetch a line,
parse it; do `cd` in the shell itself; for anything else `fork`, put the
redirection into effect and call `execvp` in the child, and wait for it in the
parent.

The shell is a process with its table of descriptors and its directory
(`Process`); the child gets a copy of the table.  What the rest of the machine
does with names and programs is a `Machine`: which files names stand for, where
`chdir` leads to, and what the program does that `execvp` finds.  The parent
waits until the child has ended; before, it prints a line, which may come
before, between or behind the calls of the child.  So a round is a function, of
the state and of what comes of `fork` (`Fork`).
-/

import OSNetWorkCode.Lib.Decimal
import OSNetWorkCode.Shell.Safety
import OSNetWorkCode.Unix.Program

namespace OSNetWorkCode
namespace Shell

open Unix

/-- `"[yufc@localhost myshell]# "`. -/
def prompt : List UInt8 := [91, 121, 117, 102, 99, 64, 108, 111, 99, 97, 108, 104, 111, 115, 116, 32,
  109, 121, 115, 104, 101, 108, 108, 93, 35, 32]

/-- `"exit code: "`. -/
def exitCode : List UInt8 := [101, 120, 105, 116, 32, 99, 111, 100, 101, 58, 32]

/-- `"开始重定向2 "`, in UTF-8. -/
def begun : List UInt8 := [229, 188, 128, 229, 167, 139, 233, 135, 141, 229, 174, 154, 229, 144, 145,
  50, 32]

/-- What `printf("开始重定向2 %d\n", id)` prints; `none` is `-1`. -/
def forkLine (id : Option ℕ) : List UInt8 :=
  begun ++ id.elim [45, 49] decimal ++ [newline]

/-- `"bug?\n"`. -/
def bug : List UInt8 := [98, 117, 103, 63, 10]

/-- What the shell finds on the machine it runs on. -/
structure Machine (Dir P : Type*) extends Names Dir P where
  chdir : Files P → Dir → List UInt8 → Option Dir
  /-- What the program does that is found for these arguments, if one is. -/
  execvp : Files P → Dir → List (List UInt8) → Option (Program P)

/-- What comes of `fork`. -/
inductive Fork
  | failed
  /-- The child's number, and how many of its calls come before the line that its parent prints. -/
  | child (pid before : ℕ)
  deriving DecidableEq

/-- The process of the shell, and the kernel. -/
structure Process (Dir P : Type*) where
  globals : State
  fds : FdTable ℕ
  cwd : Dir
  kernel : Kernel P

/-- The zeros of `memset` fill `cmd_line`. -/
theorem length_zeros : (List.replicate num (0 : UInt8)).length = num := List.length_replicate

/-- `memset(cmd_line, 0, sizeof cmd_line)`. -/
def State.clear (s : State) : State :=
  { s with cmdLine := ⟨s.cmdLine.front, List.replicate num 0, length_zeros⟩ }

/-- The strings in `g_argv`, up to the null pointer. -/
def State.args (s : State) : Option (List (List UInt8)) :=
  if .null ∈ s.argv.entries then (s.argv.entries.takeWhile (· ≠ .null)).mapM s.string else none

section main

variable {Dir P : Type*}

/-- `printf`, flushed. -/
def Process.print [DecidableEq P] (s : Process Dir P) (bytes : List UInt8) : Process Dir P :=
  { s with kernel := (s.kernel.write s.fds 1 bytes).2 }

/-- The shell has taken a line: the globals then, and what is left of the
input. -/
def Process.taken (s : Process Dir P) (globals : State) (rest : List UInt8) : Process Dir P :=
  { s with
    globals := globals
    kernel := { s.kernel with world := { s.kernel.world with input := rest } } }

/-- `memset` and `fgets` from the terminal; `none` for a null pointer. -/
def Process.getLine (s : Process Dir P) : Option (Process Dir P) :=
  match s.kernel.stream s.fds 0 with
  | some .terminal =>
    (readLine s.globals s.kernel.world.input).map fun (globals, rest) => s.taken globals rest
  | _ => none

variable [DecidableEq P]

/-- `fd = open(name, flags); dup2(fd, no)`.  Where `open` returns `-1`, `dup2`
does nothing. -/
def openOver (m : Machine Dir P) (flags : Flags) (no : ℕ) (cwd : Dir) (name : List UInt8)
    (t : FdTable ℕ) (k : Kernel P) : FdTable ℕ × Kernel P :=
  match k.openFile m.toNames flags cwd name t with
  | (some fd, t, k) => (t.dup2 fd no, k)
  | (none, t, k) => (t, k)

/-- `if (sep != NULL)` in the child, with the `switch` in it. -/
def redirect (m : Machine Dir P) (globals : State) (sep : Option ℕ) (cwd : Dir) (t : FdTable ℕ)
    (k : Kernel P) : Option (FdTable ℕ × Kernel P) :=
  match sep, globals.redirStatus with
  | none, _ => some (t, k)
  | some p, .input => (globals.cmdLine.string p).map fun name => openOver m .read 0 cwd name t k
  | some p, .output => (globals.cmdLine.string p).map fun name => openOver m .trunc 1 cwd name t k
  | some p, .append => (globals.cmdLine.string p).map fun name => openOver m .append 1 cwd name t k
  | some _, .none => some (t, (k.write t 1 bug).2)

/-- `execvp(g_argv[0], g_argv)`, and `exit(1)` where it returns. -/
def exec (m : Machine Dir P) (other : Kernel P → Kernel P) (turn : Turn) (argv : List (List UInt8))
    (cwd : Dir) (t : FdTable ℕ) (k : Kernel P) : Status × Kernel P :=
  match m.execvp k.world.files cwd argv with
  | some program => program.exec other turn t k
  | none => (.exited 1, turn.last other k)

/-- `printf` in the child, behind `fork`. -/
def announce (other : Kernel P → Kernel P) (turn : Turn) (t : FdTable ℕ) (k : Kernel P) :
    Turn × Kernel P :=
  let r := turn.next other k
  r.1.next other (r.2.write t 1 (forkLine (some 0))).2

/-- What the child does, its parent making a call meanwhile: how it ends, and
the kernel then. -/
def child (m : Machine Dir P) (other : Kernel P → Kernel P) (turn : Turn) (globals : State)
    (sep : Option ℕ) (cwd : Dir) (t : FdTable ℕ) (k : Kernel P) : Option (Status × Kernel P) :=
  let r := announce other turn t k
  (redirect m globals sep cwd t r.2).bind fun (t, k) =>
    globals.args.map fun argv => exec m other r.1 argv cwd t k

/-- `if (g_argv[1] != NULL) chdir(g_argv[1])`. -/
def changeDir (m : Machine Dir P) (s : Process Dir P) : Option (Process Dir P) :=
  s.globals.argv.entries[1]?.bind fun p =>
    if p = .null then some s
    else (s.globals.string p).map fun name =>
      { s with cwd := (m.chdir s.kernel.world.files s.cwd name).getD s.cwd }

/-- `printf("exit code: %d\n", WEXITSTATUS(status))`. -/
def Process.report (s : Process Dir P) (status : Status) : Process Dir P :=
  s.print (exitCode ++ decimal (wexitstatus status.word) ++ [newline])

/-- From `fork` to the end of the round. -/
def run (m : Machine Dir P) (fork : Fork) (sep : Option ℕ) (s : Process Dir P) :
    Option (Process Dir P) :=
  match fork with
  | .failed => some (s.print (forkLine none))
  | .child pid before =>
    let other (k : Kernel P) : Kernel P := (k.write s.fds 1 (forkLine (some pid))).2
    (child m other (some before) s.globals sep s.cwd s.fds s.kernel).map fun (status, k) =>
      Process.report { s with kernel := k } status

/-- What is done with a line that was read. -/
def perform (m : Machine Dir P) (fork : Fork) (s : Process Dir P) : Option (Process Dir P) :=
  (parse s.globals).bind fun (globals, sep) =>
    (isCd globals).bind fun cmp =>
      if cmp then changeDir m { s with globals := globals }
      else run m fork sep { s with globals := globals }

/-- One round of the loop. -/
def round (m : Machine Dir P) (fork : Fork) (s : Process Dir P) : Option (Process Dir P) :=
  match (s.print prompt).getLine with
  | none => some { s.print prompt with globals := s.globals.clear }
  | some s => perform m fork s

/-- The shell after some rounds, with what comes of `fork` in each. -/
def rounds (m : Machine Dir P) : List Fork → Process Dir P → Option (Process Dir P)
  | [], s => some s
  | fork :: forks, s => (round m fork s).bind (rounds m forks)

end main

end Shell
end OSNetWorkCode
