/-
# What a command cannot do to the shell

A redirection is put into effect in the child, on its copy of the table of
descriptors, so it ends with the child.  Whatever is typed, as long as the
shell gets through it: at each prompt the shell's descriptors are those of the
first prompt, its standard streams are at the terminal, and the prompt is shown
there; and nothing but `cd` moves it to another directory (`rounds_confined`).
The lines may be any bytes, the programs may do what they like, `fork` may
fail, and what the shell prints meanwhile may fall anywhere among the calls of
the child.
-/

import Mathlib.Logic.Relation
import OSNetWorkCode.Shell.Commands

namespace OSNetWorkCode
namespace Shell

open Unix

variable {Dir P : Type*} [DecidableEq P] {m : Machine Dir P} {s s' : Process Dir P}

/-- What a round leads to: the terminal shows a prompt and then `part`. -/
structure Confined (m : Machine Dir P) (s : Process Dir P) (part : List UInt8)
    (s' : Process Dir P) : Prop where
  fds : s'.fds = s.fds
  atPrompt : AtPrompt s'
  output : s'.kernel.world.output = s.kernel.world.output ++ (prompt ++ part)
  cwd : s'.cwd = s.cwd ∨ ∃ files name, m.chdir files s.cwd name = some s'.cwd

/-- What is printed is shown behind what there was. -/
theorem AtPrompt.print_output (h : AtPrompt s) (bytes : List UInt8) :
    s.kernel.world.output <+: (s.print bytes).kernel.world.output := by
  rw [h.print_eq]
  exact List.prefix_append _ _

/-- What `cd` can change of the shell: its directory. -/
structure Moved (m : Machine Dir P) (s s' : Process Dir P) : Prop where
  globals : s'.globals = s.globals
  fds : s'.fds = s.fds
  kernel : s'.kernel = s.kernel
  cwd : s'.cwd = s.cwd ∨ ∃ files name, m.chdir files s.cwd name = some s'.cwd

omit [DecidableEq P] in
/-- `cd` without a word behind it does nothing, and where `chdir` fails the
shell stays where it was. -/
theorem changeDir_keeps (hs : changeDir m s = some s') : Moved m s s' := by
  obtain ⟨p, -, hs⟩ := Option.bind_eq_some_iff.1 hs
  split_ifs at hs
  · cases hs
    exact ⟨rfl, rfl, rfl, .inl rfl⟩
  · obtain ⟨name, -, rfl⟩ := Option.map_eq_some_iff.1 hs
    refine ⟨rfl, rfl, rfl, ?_⟩
    show (m.chdir s.kernel.world.files s.cwd name).getD s.cwd = s.cwd ∨ _
    cases hdir : m.chdir s.kernel.world.files s.cwd name with
    | none => exact .inl rfl
    | some dir => exact .inr ⟨_, name, hdir⟩

/-- What a child can change of the shell: what it sees of the terminal and of
the files, but neither its descriptors nor its directory. -/
structure Survived (s s' : Process Dir P) : Prop where
  globals : s'.globals = s.globals
  fds : s'.fds = s.fds
  cwd : s'.cwd = s.cwd
  atPrompt : AtPrompt s'
  output : s.kernel.world.output <+: s'.kernel.world.output

/-- **A child leaves the shell what it has.**  It works on a copy of the
descriptors, and what it shows at the terminal stays there. -/
theorem run_confined {fork : Fork} {sep : Option ℕ} (h : AtPrompt s)
    (hs : run m fork sep s = some s') : Survived s s' := by
  cases fork with
  | failed =>
    cases hs
    exact ⟨rfl, rfl, rfl, h.print _, h.print_output _⟩
  | child pid before =>
    obtain ⟨⟨status, k⟩, hchild, rfl⟩ := Option.map_eq_some_iff.1 hs
    have hkeeps := child_keeps (fun k => k.write_keeps s.fds 1 _) hchild
    have hat : AtPrompt { s with kernel := k } := h.keeps hkeeps
    exact ⟨rfl, rfl, rfl, hat.print _, hkeeps.output.trans (hat.print_output _)⟩

/-- **Behind a line, the shell is where it was,** or where `chdir` leads to.
The line is done by `cd` or by a child, and neither touches the descriptors of
the shell. -/
theorem perform_confined {fork : Fork} (h : AtPrompt s) (hs : perform m fork s = some s') :
    s'.fds = s.fds ∧ AtPrompt s' ∧ s.kernel.world.output <+: s'.kernel.world.output ∧
      (s'.cwd = s.cwd ∨ ∃ files name, m.chdir files s.cwd name = some s'.cwd) := by
  obtain ⟨⟨g, sep⟩, -, hs⟩ := Option.bind_eq_some_iff.1 hs
  obtain ⟨cmp, -, hs⟩ := Option.bind_eq_some_iff.1 hs
  have hat : AtPrompt { s with globals := g } := h
  cases cmp with
  | true =>
    have hmoved := changeDir_keeps hs
    have hkernel : s'.kernel = s.kernel := hmoved.kernel
    refine ⟨hmoved.fds, ?_, ⟨[], ?_⟩, hmoved.cwd⟩
    · rw [AtPrompt, hmoved.fds, hkernel]
      exact h
    · rw [List.append_nil, hkernel]
  | false =>
    have hrun := run_confined hat hs
    exact ⟨hrun.fds, hrun.atPrompt, hrun.output, .inl hrun.cwd⟩

/-- **A round is confined,** also one that finds no line.  The prompt comes
first, and what follows is the part of this round. -/
theorem round_confined {fork : Fork} (h : AtPrompt s) (hs : round m fork s = some s') :
    ∃ part, Confined m s part s' := by
  have hprompt := h.print prompt
  have hshown : (s.print prompt).kernel.world.output = s.kernel.world.output ++ prompt := by
    rw [h.print_eq]
    rfl
  unfold round at hs
  split at hs
  · cases hs
    exact ⟨[], rfl, hprompt, by rw [List.append_nil]; exact hshown, .inl rfl⟩
  · rename_i s₁ hline
    have hterminal : (s.print prompt).kernel.stream (s.print prompt).fds 0 = some .terminal :=
      hprompt.stream 0
    simp only [Process.getLine, hterminal] at hline
    obtain ⟨⟨g, rest⟩, -, rfl⟩ := Option.map_eq_some_iff.1 hline
    have htaken : AtPrompt ((s.print prompt).taken g rest) := hprompt.world _
    obtain ⟨hfds, hat, ⟨part, hpart⟩, hcwd⟩ := perform_confined htaken hs
    refine ⟨part, hfds, hat, ?_, hcwd⟩
    rw [← hpart, ← List.append_assoc, ← hshown]
    rfl

/-- **Every session is confined.**  For every machine with any programs, every
input and every outcome of `fork`: after any number of rounds that the shell
gets through, its table of descriptors is the one it had, its standard streams
are at the terminal, the terminal shows a prompt for each round with what came
of it behind, and nothing but `chdir` calls lead from the directory it was in
to the one it is in. -/
theorem rounds_confined (m : Machine Dir P) {forks : List Fork} (h : AtPrompt s)
    (hs : rounds m forks s = some s') : s'.fds = s.fds ∧ AtPrompt s' ∧
      (∃ parts : List (List UInt8), parts.length = forks.length ∧ s'.kernel.world.output =
        s.kernel.world.output ++ parts.flatMap fun part => prompt ++ part) ∧
      Relation.ReflTransGen (fun dir dir' => ∃ files name, m.chdir files dir name = some dir')
        s.cwd s'.cwd := by
  induction forks generalizing s with
  | nil =>
    cases hs
    exact ⟨rfl, h, ⟨[], rfl, (List.append_nil _).symm⟩, .refl⟩
  | cons fork forks ih =>
    obtain ⟨s₁, hround, hrest⟩ := Option.bind_eq_some_iff.1 hs
    obtain ⟨part, hfirst⟩ := round_confined h hround
    obtain ⟨hfds, hat, ⟨parts, hlen, houtput⟩, hcwd⟩ := ih hfirst.atPrompt hrest
    refine ⟨hfds.trans hfirst.fds, hat, ⟨part :: parts, by rw [List.length_cons, hlen]; rfl, ?_⟩, ?_⟩
    · rw [houtput, hfirst.output, List.flatMap_cons, List.append_assoc]
    · rcases hfirst.cwd with heq | hdir
      · rwa [heq] at hcwd
      · exact .head hdir hcwd

/-- Behind `e a>f` and `e b>>f` the shell is at the terminal. -/
theorem rounds_confined_echo : ∃ s', rounds echoing twoChildren (fresh echoTwice) = some s' ∧
    s'.fds = [some 0, some 0, some 0] ∧ AtPrompt s' := by
  obtain ⟨w, hscript, -⟩ := script_echoTwice
  obtain ⟨s', hrounds, -⟩ := run_script hscript (atPrompt_fresh echoTwice) rfl
  obtain ⟨hfds, hat, -⟩ := rounds_confined echoing (atPrompt_fresh echoTwice) hrounds
  exact ⟨s', hrounds, hfds, hat⟩

end Shell
end OSNetWorkCode
