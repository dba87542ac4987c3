/-
# Both versions of the shell

`0921/shell/myshell.c` is the first version of the shell,
`1017/shell/myshell.c` the one that knows redirections.  A round is alike in
both: prompt, fetch a line, overwrite its last byte, split it at the spaces, do
`cd` in the shell and anything else in a child, and wait for it.  The first
version looks for no redirection before it splits the line, and its child
prints another line, its parent none (`runFirst`).  Where `fork` fails it
prints nothing at all, for then `waitpid` finds no child.

What a round keeps is stated for both at once.  The shell stays at the
terminal, its globals are what the parser has made of them, and `cd` leaves the
input alone (`Version.perform_keeps`).  What a program does to the input is
left to the program: it may read lines that were meant for the shell.  Where no
program on the machine reads anything, nothing but `fgets` takes from the input
(`Version.perform_input`).

Where there is nothing in front of `cmd_line` that may be touched, there never
is (`Version.parse_front`).
-/

import OSNetWorkCode.Shell.Confinement

namespace OSNetWorkCode
namespace Shell

open Unix

/-- The two versions of the shell. -/
inductive Version
  | v0921
  | v1017

/-- From the overwritten byte to the end of the loop over `strtok`: the new
state, and where the name of the file of a redirection is.  The first version
knows no redirections. -/
def Version.parse : Version → State → Option (State × Option ℕ)
  | .v0921, s => do
    let b ← strip s.cmdLine
    let s ← split { s with cmdLine := b }
    some (s, none)
  | .v1017, s => Shell.parse s

/-- `"下面功能是让子进程执行的\n"`, in UTF-8. -/
def childLine : List UInt8 := [228, 184, 139, 233, 157, 162, 229, 138, 159, 232, 131, 189, 230, 152,
  175, 232, 174, 169, 229, 173, 144, 232, 191, 155, 231, 168, 139, 230, 137, 167, 232, 161, 140, 231,
  154, 132, 10]

section main

variable {Dir P : Type*} [DecidableEq P]

/-- From `fork` to the end of the round, in the first version.  The parent
makes no call before its child has ended, so its turn never comes. -/
def runFirst (m : Machine Dir P) (fork : Fork) (s : Process Dir P) : Option (Process Dir P) :=
  match fork with
  | .failed => some s
  | .child _ _ => s.globals.args.map fun argv =>
    let r := exec m id none argv s.cwd s.fds (s.kernel.write s.fds 1 childLine).2
    Process.report { s with kernel := r.2 } r.1

/-- From `fork` to the end of the round. -/
def Version.run (v : Version) (m : Machine Dir P) (fork : Fork) (sep : Option ℕ)
    (s : Process Dir P) : Option (Process Dir P) :=
  match v with
  | .v0921 => runFirst m fork s
  | .v1017 => Shell.run m fork sep s

/-- What is done with a line that was read. -/
def Version.perform (v : Version) (m : Machine Dir P) (fork : Fork) (s : Process Dir P) :
    Option (Process Dir P) :=
  (v.parse s.globals).bind fun (globals, sep) =>
    (isCd globals).bind fun cmp =>
      if cmp then changeDir m { s with globals := globals }
      else v.run m fork sep { s with globals := globals }

/-- One round of the loop. -/
def Version.round (v : Version) (m : Machine Dir P) (fork : Fork) (s : Process Dir P) :
    Option (Process Dir P) :=
  match (s.print prompt).getLine with
  | none => some { s.print prompt with globals := s.globals.clear }
  | some s => v.perform m fork s

/-- The shell after some rounds, with what comes of `fork` in each. -/
def Version.rounds (v : Version) (m : Machine Dir P) :
    List Fork → Process Dir P → Option (Process Dir P)
  | [], s => some s
  | fork :: forks, s => (v.round m fork s).bind (v.rounds m forks)

/-- The rounds of the second version are those of the shell that knows
redirections, so what is shown of both versions here is shown of `rounds`
too. -/
theorem rounds_v1017 (m : Machine Dir P) (forks : List Fork) (s : Process Dir P) :
    Version.v1017.rounds m forks s = rounds m forks s := by
  induction forks generalizing s with
  | nil => rfl
  | cons fork forks ih =>
    show (round m fork s).bind _ = (round m fork s).bind _
    exact congrArg _ (funext ih)

end main

/-! ### What lies in front of `cmd_line` -/

/-- Overwriting the last byte adds nothing in front of `cmd_line`. -/
theorem strip_front_length {b b' : Block num} (h : strip b = some b') :
    b'.front.length = b.front.length := by
  obtain ⟨len, -, hstore⟩ := Option.bind_eq_some_iff.1 h
  exact Block.length_front_store hstore

/-- `CheckRedir` stores in at most one place, and adds nothing in front either.
The induction is on where the scan is. -/
theorem scan_front_length {n : ℕ} {b : Block n} : ∀ {e : ℕ} {r}, scan b e = some r →
    r.1.front.length = b.front.length
  | 0, r, h => by
    obtain rfl := Option.some.inj h
    rfl
  | e + 1, r, h => by
    simp only [scan, Option.bind_eq_bind, Option.bind_eq_some_iff] at h
    obtain ⟨c, -, h⟩ := h
    split_ifs at h
    · obtain ⟨before, -, h⟩ := Option.bind_eq_some_iff.1 h
      split_ifs at h <;>
      · obtain ⟨b', hstore, h⟩ := Option.bind_eq_some_iff.1 h
        obtain rfl := Option.some.inj h
        exact Block.length_front_store hstore
    · obtain ⟨b', hstore, h⟩ := Option.bind_eq_some_iff.1 h
      obtain rfl := Option.some.inj h
      exact Block.length_front_store hstore
    · exact scan_front_length h

/-- **What is not there is not touched:** with nothing in front of `cmd_line`
before the parser, there is nothing in front of it behind the parser. -/
theorem Version.parse_front {v : Version} {s : State} {r : State × Option ℕ}
    (h : v.parse s = some r) (hfront : s.cmdLine.front = []) : r.1.cmdLine.front = [] := by
  rw [← List.length_eq_zero_iff] at hfront ⊢
  cases v with
  | v0921 =>
    obtain ⟨b, hstrip, h⟩ := Option.bind_eq_some_iff.1 h
    obtain ⟨s', hsplit, h⟩ := Option.bind_eq_some_iff.1 h
    obtain rfl := Option.some.inj h
    rw [split_front hsplit]
    exact (strip_front_length hstrip).trans hfront
  | v1017 =>
    obtain ⟨b, hstrip, h⟩ := Option.bind_eq_some_iff.1 h
    obtain ⟨⟨b', redir, file⟩, hcheck, h⟩ := Option.bind_eq_some_iff.1 h
    obtain ⟨s', hsplit, h⟩ := Option.bind_eq_some_iff.1 h
    obtain rfl := Option.some.inj h
    obtain ⟨len, -, hcheck⟩ := Option.bind_eq_some_iff.1 hcheck
    obtain ⟨r, hscan, hr⟩ := Option.bind_eq_some_iff.1 hcheck
    obtain rfl : r.1 = b' := congrArg Prod.fst (Option.some.inj hr)
    rw [split_front hsplit]
    exact ((scan_front_length hscan).trans (strip_front_length hstrip)).trans hfront

/-- The parser has overwritten a byte before it does anything else. -/
theorem Version.exists_strip {v : Version} {s : State} {r : State × Option ℕ}
    (h : v.parse s = some r) : ∃ b, strip s.cmdLine = some b := by
  cases v with
  | v0921 | v1017 =>
    obtain ⟨b, hstrip, -⟩ := Option.bind_eq_some_iff.1 h
    exact ⟨b, hstrip⟩

/-! ### What a round keeps -/

section kept

variable {Dir P : Type*} [DecidableEq P] {m : Machine Dir P} {s s' : Process Dir P}

/-- The first version leaves the terminal to the shell, whatever the program
does. -/
theorem runFirst_keeps {fork : Fork} (h : AtPrompt s) (hs : runFirst m fork s = some s') :
    AtPrompt s' ∧ s'.globals = s.globals := by
  cases fork with
  | failed =>
    cases hs
    exact ⟨h, rfl⟩
  | child pid before =>
    obtain ⟨argv, -, rfl⟩ := Option.map_eq_some_iff.1 hs
    have hexec := exec_keeps (m := m) (fun k : Kernel P => k.keeps_rfl) none argv s.cwd s.fds
      (s.kernel.write s.fds 1 childLine).2
    exact ⟨(h.keeps ((s.kernel.write_keeps s.fds 1 childLine).trans hexec)).print _, rfl⟩

/-- Both versions leave the terminal to the shell, and its globals as the
parser has made them. -/
theorem Version.run_keeps {v : Version} {fork : Fork} {sep : Option ℕ} (h : AtPrompt s)
    (hs : v.run m fork sep s = some s') : AtPrompt s' ∧ s'.globals = s.globals := by
  cases v with
  | v0921 => exact runFirst_keeps h hs
  | v1017 =>
    have hrun := run_confined h hs
    exact ⟨hrun.atPrompt, hrun.globals⟩

/-- **What is done with a line:** the parser gets through it, the globals are
what it has made of them, and the shell is at its terminal.  `cd` leaves the
kernel alone, so the input too; of a program nothing is said. -/
theorem Version.perform_keeps {v : Version} {fork : Fork} (h : AtPrompt s)
    (hs : v.perform m fork s = some s') : AtPrompt s' ∧
      ∃ file cmp, v.parse s.globals = some (s'.globals, file) ∧ isCd s'.globals = some cmp ∧
        (cmp = true → s'.kernel = s.kernel) := by
  obtain ⟨⟨g, file⟩, hparse, hs⟩ := Option.bind_eq_some_iff.1 hs
  obtain ⟨cmp, hcd, hs⟩ := Option.bind_eq_some_iff.1 hs
  have hat : AtPrompt { s with globals := g } := h
  cases cmp with
  | true =>
    have hdir := changeDir_keeps hs
    rw [← show s'.globals = g from hdir.globals] at hparse hcd
    refine ⟨?_, file, true, hparse, hcd, fun _ => hdir.kernel⟩
    rw [AtPrompt, hdir.fds, hdir.kernel]
    exact h
  | false =>
    obtain ⟨hat', hglobals⟩ := v.run_keeps hat hs
    rw [← show s'.globals = g from hglobals] at hparse hcd
    exact ⟨hat', file, false, hparse, hcd, fun h => absurd h Bool.false_ne_true⟩

/-- What `fgets` finds at the terminal is what was typed and not read yet. -/
theorem AtPrompt.getLine (h : AtPrompt s) : (s.print prompt).getLine =
    (readLine s.globals s.kernel.world.input).map fun (g, rest) => (s.print prompt).taken g rest := by
  have hterminal : (s.print prompt).kernel.stream (s.print prompt).fds 0 = some .terminal :=
    (h.print prompt).stream 0
  have hinput : (s.print prompt).kernel.world.input = s.kernel.world.input := by
    rw [h.print_eq]
    rfl
  simp only [Process.getLine, hterminal, hinput]
  rfl

/-- What a round comes to: the input was at its end, and the loop goes on with
`cmd_line` cleared; or a line was fetched that the parser got through, and a
command carried out. -/
inductive Version.Round (v : Version) (s s' : Process Dir P) : Prop
  | eof (hread : readLine s.globals s.kernel.world.input = none)
      (hline : (s.print prompt).getLine = none) (hglobals : s'.globals = s.globals.clear)
      (hinput : s'.kernel.world.input = s.kernel.world.input)
  | line {g rest file cmp} (hread : readLine s.globals s.kernel.world.input = some (g, rest))
      (hline : (s.print prompt).getLine = some ((s.print prompt).taken g rest))
      (hparse : v.parse g = some (s'.globals, file)) (hcmp : isCd s'.globals = some cmp)
      (hcd : cmp = true → s'.kernel.world.input = rest)

/-- **A round at the terminal** ends at the terminal, and is one of the two
kinds of `Round`. -/
theorem Version.round_keeps {v : Version} {fork : Fork} (h : AtPrompt s)
    (hs : v.round m fork s = some s') : AtPrompt s' ∧ v.Round s s' := by
  have hline := h.getLine
  unfold Version.round at hs
  cases hread : readLine s.globals s.kernel.world.input with
  | none =>
    rw [hread, Option.map_none] at hline
    rw [hline] at hs
    cases hs
    have hat : AtPrompt (s.print prompt) := h.print prompt
    refine ⟨hat, .eof hread hline rfl ?_⟩
    rw [h.print_eq]
    rfl
  | some r =>
    obtain ⟨g, rest⟩ := r
    rw [hread, Option.map_some] at hline
    rw [hline] at hs
    have htaken : AtPrompt ((s.print prompt).taken g rest) := (h.print prompt).world _
    obtain ⟨hat, file, cmp, hparse, hcmp, hkernel⟩ := v.perform_keeps htaken hs
    refine ⟨hat, .line hread hline hparse hcmp fun hcd => ?_⟩
    rw [hkernel hcd]
    rfl

/-! ### Programs that read nothing -/

/-- No program that is found on the machine reads anything. -/
def Machine.Deaf (m : Machine Dir P) : Prop :=
  ∀ files cwd argv program, m.execvp files cwd argv = some program → program.Deaf

/-- A file that is opened takes nothing from what was typed. -/
theorem openOver_input (flags : Flags) (no : ℕ) (cwd : Dir) (name : List UInt8) (t : FdTable ℕ)
    (k : Kernel P) : (openOver m flags no cwd name t k).2.world.input = k.world.input := by
  have hinput := k.openFile_input m.toNames flags cwd name t
  unfold openOver
  split <;> rename_i hopen <;> rwa [hopen] at hinput

/-- A redirection opens a file or prints a line, and takes nothing from what
was typed. -/
theorem redirect_input {g : State} {sep : Option ℕ} {cwd : Dir} {t t' : FdTable ℕ}
    {k k' : Kernel P} (h : redirect m g sep cwd t k = some (t', k')) :
    k'.world.input = k.world.input := by
  have hopen : ∀ {flags no} {name : Option (List UInt8)},
      (name.map fun name => openOver m flags no cwd name t k) = some (t', k') →
        k'.world.input = k.world.input := by
    intro flags no name h
    obtain ⟨name, -, heq⟩ := Option.map_eq_some_iff.1 h
    have hinput := openOver_input (m := m) flags no cwd name t k
    rwa [heq] at hinput
  unfold redirect at h
  split at h
  · cases h
    rfl
  · exact hopen h
  · exact hopen h
  · exact hopen h
  · cases h
    exact k.write_input t 1 bug

section deaf

variable (hm : m.Deaf)

include hm

/-- A program that reads nothing leaves the input, and so does `exit(1)` at a
terminal. -/
theorem exec_input {other : Kernel P → Kernel P}
    (hother : ∀ k : Kernel P, (other k).world.input = k.world.input) (turn : Turn)
    (argv : List (List UInt8)) (cwd : Dir) (t : FdTable ℕ) (k : Kernel P) :
    (exec m other turn argv cwd t k).2.world.input = k.world.input := by
  unfold exec
  split
  · rename_i program hprogram
    exact (hm _ _ _ _ hprogram).exec_input hother turn t k
  · exact turn.last_input hother k

/-- The child and its parent only write, and a file that is opened is not the
terminal. -/
theorem child_input {other : Kernel P → Kernel P} {turn : Turn} {g : State} {sep : Option ℕ}
    {cwd : Dir} {t : FdTable ℕ} {k : Kernel P} {r : Status × Kernel P}
    (hother : ∀ k : Kernel P, (other k).world.input = k.world.input)
    (h : child m other turn g sep cwd t k = some r) : r.2.world.input = k.world.input := by
  obtain ⟨⟨t', k'⟩, hredirect, h⟩ := Option.bind_eq_some_iff.1 h
  obtain ⟨argv, -, rfl⟩ := Option.map_eq_some_iff.1 h
  have hannounce : (announce other turn t k).2.world.input = k.world.input :=
    (Turn.next_input hother _ _).trans
      ((Kernel.write_input _ t 1 _).trans (turn.next_input hother k))
  have hopen : k'.world.input = (announce other turn t k).2.world.input :=
    redirect_input hredirect
  exact (exec_input hm hother _ argv cwd t' k').trans (hopen.trans hannounce)

/-- **Behind a line the input is what `fgets` has left,** also where no program
is found.  Neither `cd` nor a program that reads nothing takes from it. -/
theorem Version.perform_input {v : Version} {fork : Fork} (hs : v.perform m fork s = some s') :
    s'.kernel.world.input = s.kernel.world.input := by
  obtain ⟨⟨g, file⟩, -, hs⟩ := Option.bind_eq_some_iff.1 hs
  obtain ⟨cmp, -, hs⟩ := Option.bind_eq_some_iff.1 hs
  cases cmp with
  | true => rw [(changeDir_keeps hs).kernel]
  | false =>
    have hprint : ∀ (s : Process Dir P) (bytes : List UInt8),
        (s.print bytes).kernel.world.input = s.kernel.world.input :=
      fun s bytes => Kernel.write_input s.kernel s.fds 1 bytes
    cases v with
    | v0921 =>
      cases fork with
      | failed =>
        cases hs
        rfl
      | child pid before =>
        obtain ⟨argv, -, rfl⟩ := Option.map_eq_some_iff.1 hs
        exact (hprint _ _).trans ((exec_input hm (fun _ => rfl) none argv _ _ _).trans
          (Kernel.write_input _ _ 1 _))
    | v1017 =>
      cases fork with
      | failed =>
        cases hs
        exact hprint _ _
      | child pid before =>
        obtain ⟨⟨status, k⟩, hchild, rfl⟩ := Option.map_eq_some_iff.1 hs
        exact (hprint _ _).trans
          (child_input hm (fun k => Kernel.write_input k s.fds 1 _) hchild)

end deaf

end kept

end Shell
end OSNetWorkCode
