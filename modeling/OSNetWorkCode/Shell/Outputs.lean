/-
# What `>` and `>>` leave in a file

A program that only writes (`Writes`) does not see where its standard output
goes.  With `>` the file holds afterwards what the program has written, with
`>>` what it held before and that behind it, and every other file is what it
was (`Job.means_eq`).  So the file that a session writes its outputs to holds
those since the last `>`, one behind the other (`outputs_collected`).
-/

import OSNetWorkCode.Shell.Commands

namespace OSNetWorkCode
namespace Shell

open Unix Function

variable {Dir P : Type*}

/-- The program writes `out` to its standard output and `err` to standard
error, in any pieces, and ends. -/
inductive Writes : Program P → List UInt8 → List UInt8 → Status → Prop
  | stop {status} : Writes (.stop status) [] [] status
  | out {bytes next out err status} (h : Writes (next (some bytes.length)) out err status) :
      Writes (.write 1 bytes next) (bytes ++ out) err status
  | err {bytes next out err status} (h : Writes (next (some bytes.length)) out err status) :
      Writes (.write 2 bytes next) out (bytes ++ err) status

/-- What is written to this stream comes behind `old` in file `p`. -/
inductive Sink (p : P) (old : List UInt8) : Stream P → Prop
  | writing : Sink p old (.writing p old.length)
  | appending : Sink p old (.appending p)

variable [DecidableEq P] {m : Machine Dir P}

/-- What is written to it comes behind what the file holds, and the next write
behind that: a position moves along, and `O_APPEND` needs none. -/
theorem Sink.write {p : P} {old : List UInt8} {s : Stream P} {w : World P} (h : Sink p old s)
    (hold : w.files p = some old) (bytes : List UInt8) :
    (s.write bytes w).1 = some bytes.length ∧ Sink p (old ++ bytes) (s.write bytes w).2.1 ∧
      (s.write bytes w).2.2 = { w with files := update w.files p (some (old ++ bytes)) } := by
  cases h with
  | writing =>
    refine ⟨rfl, ?_, ?_⟩
    · show Sink p (old ++ bytes) (.writing p (old.length + bytes.length))
      rw [← List.length_append]
      exact .writing
    · simp only [Stream.write, hold, Option.getD_some, writeAt_length]
  | appending =>
    refine ⟨rfl, .appending, ?_⟩
    simp only [Stream.write, hold, Option.getD_some]

/-- **What a program writes comes into the file,** whatever another process
shows meanwhile.  What it writes to standard error is shown and is not in the
file; the induction is on its writes. -/
theorem Writes.run {program : Program P} {out err : List UInt8} {status : Status}
    (h : Writes program out err status) {p : P} {old : List UInt8} {s : Stream P} {w : World P}
    (line : List UInt8) (turn : Turn) (hs : Sink p old s) (hold : w.files p = some old) :
    ∃ shown, program.run (World.show · line) turn (update atTerminal 1 s) w =
      (status, { w with files := update w.files p (some (old ++ out)), output := shown }) := by
  induction h generalizing old s w turn with
  | stop =>
    obtain ⟨more, hmore⟩ := World.last_eq turn line w
    refine ⟨w.output ++ more, ?_⟩
    rw [List.append_nil, ← hold, update_eq_self, Program.run, hmore]
    rfl
  | @out bytes next out err status h ih =>
    obtain ⟨more, hmore⟩ := World.next_eq turn line w
    obtain ⟨hn, hsink, hw⟩ := hs.write (w := w.show more) hold bytes
    obtain ⟨shown, hshown⟩ := ih (w := { w.show more with
      files := update w.files p (some (old ++ bytes)) }) (turn.next (World.show · line) w).1 hsink
      (update_self p _ w.files)
    refine ⟨shown, ?_⟩
    rw [Program.run]
    simp only [update_self, update_idem, hmore, hn, hw]
    refine hshown.trans ?_
    rw [update_idem, List.append_assoc]
    rfl
  | @err bytes next out err status h ih =>
    obtain ⟨more, hmore⟩ := World.next_eq turn line w
    have hne : (2 : Fin 3) ≠ 1 := by decide
    have hsame : update (update atTerminal 1 s) 2 .terminal = update (atTerminal (P := P)) 1 s := by
      rw [update_eq_self_iff, update_of_ne hne]
      rfl
    have hstderr : update (atTerminal (P := P)) 1 s 2 = .terminal := update_of_ne hne _ _
    obtain ⟨shown, hshown⟩ := ih (w := (w.show more).show bytes)
      (turn.next (World.show · line) w).1 hs hold
    refine ⟨shown, ?_⟩
    rw [Program.run]
    simp only [hstderr, Stream.write, hsame, hmore]
    exact hshown

omit [DecidableEq P] in
/-- Behind the child's first line, more is shown and nothing else has
changed. -/
theorem announced_eq (line : List UInt8) (turn : Turn) (w : World P) :
    ∃ more, (announced line turn w).2 = w.show more := by
  obtain ⟨first, hfirst⟩ := World.next_eq turn line w
  obtain ⟨second, hsecond⟩ := World.next_eq (turn.next (World.show · line) w).1 line
    ((w.show first).show (forkLine (some 0)))
  refine ⟨first ++ forkLine (some 0) ++ second, ?_⟩
  rw [announced, hfirst, hsecond]
  simp only [World.show, List.append_assoc]

/-- A command that writes into file `p`: what is done to the file, its outputs
and its end. -/
structure Job (m : Machine Dir P) (cwd : Dir) (p : P) where
  line : CommandLine
  fits : line.Fits
  /-- Not `cd`. -/
  external : line.argv.head? ≠ some cd
  op : Op
  file : FileName
  redir : line.redir = some (op, file)
  notInput : op ≠ .input
  writable : ∀ files, m.writable files cwd file.bytes = some p
  program : Program P
  found : ∀ files, m.execvp files cwd line.argv = some program
  out : List UInt8
  err : List UInt8
  status : Status
  writes : Writes program out err status

namespace Job

variable {cwd : Dir} {p : P}

/-- What of the file's content stays there. -/
def kept (j : Job m cwd p) (old : List UInt8) : List UInt8 := if j.op = .append then old else []

/-- The line as it is typed. -/
def typed (j : Job m cwd p) : List UInt8 := j.line.bytes ++ [newline]

/-- The file is opened: emptied for `>` and as it was for `>>`, and the output
comes behind that. -/
theorem streams_eq (j : Job m cwd p) (w : World P) : ∃ s, Sink p (j.kept ((w.files p).getD [])) s ∧
    streams m (some (j.op, j.file.bytes)) cwd w = (update atTerminal 1 s,
      { w with files := update w.files p (some (j.kept ((w.files p).getD []))) }) := by
  have hw := j.writable w.files
  unfold kept
  cases hop : j.op with
  | input => exact absurd hop j.notInput
  | output =>
    refine ⟨.writing p 0, .writing, ?_⟩
    simp [streams, Op.flags, Op.fd, Names.openStream, hw]
  | append =>
    refine ⟨.appending p, .appending, ?_⟩
    simp [streams, Op.flags, Op.fd, Names.openStream, hw]

/-- **What the command means,** run in a child: the file holds its output
behind what was kept, and neither another file nor the input is touched. -/
theorem means_eq (j : Job m cwd p) (pid before : ℕ) (s : Scene Dir P) (hcwd : s.cwd = cwd) :
    (j.line.means m (.child pid before) s).cwd = cwd ∧
      (j.line.means m (.child pid before) s).world.files =
        update s.world.files p (some (j.kept ((s.world.files p).getD []) ++ j.out)) ∧
      (j.line.means m (.child pid before) s).world.input = s.world.input := by
  subst hcwd
  obtain ⟨more, hmore⟩ := announced_eq (forkLine (some pid)) (some before) s.world
  obtain ⟨io, hsink, hstreams⟩ := j.streams_eq (s.world.show more)
  obtain ⟨shown, hshown⟩ := j.writes.run (w := { s.world.show more with
      files := update (s.world.show more).files p
        (some (j.kept (((s.world.show more).files p).getD []))) })
    (forkLine (some pid)) (announced (forkLine (some pid)) (some before) s.world).1 hsink
    (update_self p _ _)
  rw [CommandLine.means, meaning, if_neg j.external, j.redir]
  simp only [launched, carriedOut, Option.map_some, hmore, hstreams, outcome, j.found, hshown]
  exact ⟨rfl, update_idem .., rfl⟩

/-- The command leaves this. -/
def collect (j : Job m cwd p) (old : List UInt8) : List UInt8 := j.kept old ++ j.out

end Job

section session

variable {cwd : Dir} {p : P}

/-- What some commands leave, one after the other. -/
def collected (old : List UInt8) (jobs : List (Job m cwd p)) : List UInt8 :=
  jobs.foldl (fun old j => j.collect old) old

omit [DecidableEq P] in
/-- **Behind `>>` nothing is lost,** by induction on the commands. -/
theorem collected_append {jobs : List (Job m cwd p)} (h : ∀ j ∈ jobs, j.op = .append)
    (old : List UInt8) : collected old jobs = old ++ jobs.flatMap Job.out := by
  induction jobs generalizing old with
  | nil => exact (List.append_nil old).symm
  | cons j jobs ih =>
    have hkept : j.kept old = old := if_pos (h j List.mem_cons_self)
    show collected (j.collect old) jobs = _
    rw [ih fun i hi => h i (List.mem_cons_of_mem j hi), Job.collect, hkept, List.flatMap_cons,
      List.append_assoc]

omit [DecidableEq P] in
/-- **Behind `>` nothing is left** of what was there.  The commands in front of
the last `>` do not matter for the file. -/
theorem collected_output {pre post : List (Job m cwd p)} {j : Job m cwd p} (hj : j.op = .output)
    (hpost : ∀ i ∈ post, i.op = .append) (old : List UInt8) :
    collected old (pre ++ j :: post) = j.out ++ post.flatMap Job.out := by
  have hkept : ∀ old, j.kept old = [] := fun old => if_neg (by rw [hj]; decide)
  show List.foldl _ old (pre ++ j :: post) = _
  rw [List.foldl_append, List.foldl_cons, Job.collect, hkept, List.nil_append]
  exact collected_append hpost j.out

/-- What is typed is carried out, command after command.  Each leaves the scene
as the next one needs it. -/
theorem exists_script (jobs : List (Job m cwd p)) {children : List (ℕ × ℕ)}
    (hlen : children.length = jobs.length) {s : Scene Dir P} {rest : List UInt8}
    (hcwd : s.cwd = cwd) (hinput : s.world.input = jobs.flatMap Job.typed ++ rest) :
    ∃ s', Script m (children.map fun c => .child c.1 c.2) s s' ∧ s'.world.input = rest ∧
      (∀ q, q ≠ p → s'.world.files q = s.world.files q) ∧
      (jobs ≠ [] → s'.world.files p = some (collected ((s.world.files p).getD []) jobs)) := by
  induction jobs generalizing s children with
  | nil =>
    obtain rfl := List.length_eq_zero_iff.1 hlen
    exact ⟨s, .nil, hinput, fun _ _ => rfl, fun h => absurd rfl h⟩
  | cons j jobs ih =>
    cases children with
    | nil => cases hlen
    | cons c children =>
      have hline : s.world.input = j.line.bytes ++ newline :: (jobs.flatMap Job.typed ++ rest) := by
        rw [hinput, List.flatMap_cons, Job.typed]
        simp
      set s₁ := (s.print prompt).taken (jobs.flatMap Job.typed ++ rest) with hs₁
      obtain ⟨hdir, hfiles, hin⟩ := j.means_eq c.1 c.2 s₁ hcwd
      obtain ⟨s', hscript, hrest, hothers, hp⟩ := ih (Nat.succ.inj hlen) hdir hin
      refine ⟨s', .line j.line j.fits hline hscript, hrest, fun q hq => ?_, fun _ => ?_⟩
      · rw [hothers q hq, hfiles, update_of_ne hq]
        rfl
      · have hfirst : (j.line.means m (.child c.1 c.2) s₁).world.files p =
            some (j.collect ((s.world.files p).getD [])) := by
          rw [hfiles, update_self]
          rfl
        by_cases hjobs : jobs = []
        · subst hjobs
          obtain rfl := List.length_eq_zero_iff.1 (Nat.succ.inj hlen)
          cases hscript
          exact hfirst
        · rw [hp hjobs, hfirst]
          rfl

/-- **What `>` and `>>` leave.**  Let commands be typed at the prompt that only
write, each with its standard output sent by `>` or `>>` to names of one file.
After as many rounds in which `fork` makes a child the file holds what the last
command with `>` has written and behind it, in order, what the commands with
`>>` after it have written; if there is none with `>`, what it held before and
all outputs.  No other file is changed, and the lines that the shell prints
behind `fork` are in none. -/
theorem outputs_collected (m : Machine Dir P) (jobs : List (Job m cwd p)) (hjobs : jobs ≠ [])
    (children : List (ℕ × ℕ)) (hlen : children.length = jobs.length) {s : Process Dir P}
    (h : AtPrompt s) (hcwd : s.cwd = cwd) {rest : List UInt8}
    (hinput : s.kernel.world.input = jobs.flatMap Job.typed ++ rest) :
    ∃ s', rounds m (children.map fun c => .child c.1 c.2) s = some s' ∧ AtPrompt s' ∧
      s'.kernel.world.input = rest ∧
      (∀ q, q ≠ p → s'.kernel.world.files q = s.kernel.world.files q) ∧
      (∀ pre j post, jobs = pre ++ j :: post → j.op = .output → (∀ i ∈ post, i.op = .append) →
        s'.kernel.world.files p = some (j.out ++ post.flatMap Job.out)) ∧
      ((∀ j ∈ jobs, j.op = .append) → s'.kernel.world.files p =
        some ((s.kernel.world.files p).getD [] ++ jobs.flatMap Job.out)) := by
  obtain ⟨w', hscript, hrest, hothers, hp⟩ := exists_script jobs hlen (s := s.scene) hcwd hinput
  obtain ⟨s', hrounds, hat, -, rfl⟩ := run_script hscript h rfl
  refine ⟨s', hrounds, hat, hrest, hothers, fun pre j post heq hj hpost => ?_, fun happend => ?_⟩
  · refine (hp hjobs).trans ?_
    rw [heq, collected_output hj hpost]
  · refine (hp hjobs).trans ?_
    rw [collected_append happend]
    rfl

end session

/-- A program that writes its letter and ends. -/
theorem writes_letter (c : UInt8) : Writes (P := List UInt8)
    (.write Op.output.fd [c] fun _ => .stop (.exited 0)) [c] [] (.exited 0) :=
  .out .stop

/-- `e` with one letter, as a job. -/
def echoJob (c : UInt8) (hc : wordByte c) (op : Op) (hop : op ≠ .input) :
    Job echoing () [102] where
  line := echoInto c hc op
  fits := fits_echoInto hc op
  external := by
    show some [101] ≠ some cd
    decide
  op := op
  file := fileF
  redir := rfl
  notInput := hop
  writable _ := rfl
  program := .write Op.output.fd [c] fun _ => .stop (.exited 0)
  found _ := rfl
  out := [c]
  err := []
  status := .exited 0
  writes := writes_letter c

/-- What `e a>f` and `e b>>f` leave in the file. -/
theorem outputs_collected_echo :
    ∃ s', rounds echoing [.child 7 0, .child 8 9] (fresh echoTwice) = some s' ∧
      s'.kernel.world.files [102] = some [97, 98] := by
  have hinput : echoTwice = [echoJob 97 (by decide) .output nofun,
      echoJob 98 (by decide) .append nofun].flatMap Job.typed ++ [] := rfl
  obtain ⟨s', hrounds, -, -, -, hlast, -⟩ :=
    outputs_collected echoing _ (by simp) [(7, 0), (8, 9)] rfl
      (atPrompt_fresh echoTwice) rfl hinput
  refine ⟨s', hrounds, hlast [] _ _ rfl rfl fun i hi => ?_⟩
  rw [List.mem_singleton.1 hi]
  rfl

end Shell
end OSNetWorkCode
