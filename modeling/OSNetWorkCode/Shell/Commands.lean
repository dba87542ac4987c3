/-
# What a command line means

The shell is an interpreter.  What a command line does is said here without a
parser, without descriptors and without processes (`CommandLine.means`): `cd`
changes the directory; anything else is a program, run with its standard input
taken from a file, or its standard output put into one, and its exit code
reported.  The line that the shell shows behind `fork` may fall between any two
calls of the program.

A round of the shell on a line that was written out does what the line means
(`round_means`), so a session does what its lines mean, one after the other
(`executes_script`).  What was redirected ends with the child: at each prompt
the shell's own descriptors are those it had at the first one
(`rounds_confined`).
-/

import OSNetWorkCode.Shell.Main

namespace OSNetWorkCode
namespace Shell

open Unix Function

/-- A directory, and the world. -/
structure Scene (Dir P : Type*) where
  cwd : Dir
  world : World P

/-- The terminal shows some more. -/
def Scene.print {Dir P : Type*} (s : Scene Dir P) (bytes : List UInt8) : Scene Dir P :=
  { s with world := s.world.show bytes }

/-- A line is taken from what was typed. -/
def Scene.taken {Dir P : Type*} (s : Scene Dir P) (rest : List UInt8) : Scene Dir P :=
  { s with world := { s.world with input := rest } }

/-- How the file of a redirection is opened. -/
def Op.flags : Op → Flags
  | .input => .read
  | .output => .trunc
  | .append => .append

/-- The stream that is redirected. -/
def Op.fd : Op → Fin 3
  | .input => 0
  | .output | .append => 1

/-- Standard input, output and error at the terminal. -/
def atTerminal {P : Type*} : Std P := fun _ => .terminal

section meaning

variable {Dir P : Type*} [DecidableEq P]

/-- The streams of a command, and the world where the file is opened: where
that fails, the terminal takes its place. -/
def streams (m : Machine Dir P) (redir : Option (Op × List UInt8)) (cwd : Dir) (w : World P) :
    Std P × World P :=
  match redir with
  | none => (atTerminal, w)
  | some (op, name) =>
    match m.openStream op.flags cwd name w.files with
    | some (s, files) => (update atTerminal op.fd s, { w with files := files })
    | none => (atTerminal, w)

/-- What a program does that is called with these arguments, and how it ends;
meanwhile `line` is shown. -/
def outcome (m : Machine Dir P) (line : List UInt8) (turn : Turn) (argv : List (List UInt8))
    (cwd : Dir) (io : Std P) (w : World P) : Status × World P :=
  match m.execvp w.files cwd argv with
  | some program => program.run (World.show · line) turn io w
  | none => (.exited 1, turn.last (World.show · line) w)

/-- The child has shown its line. -/
def announced (line : List UInt8) (turn : Turn) (w : World P) : Turn × World P :=
  let r := turn.next (World.show · line) w
  r.1.next (World.show · line) (r.2.show (forkLine (some 0)))

/-- What the child does that runs a command: how it ends, and the world
then. -/
def carriedOut (m : Machine Dir P) (line : List UInt8) (turn : Turn) (argv : List (List UInt8))
    (redir : Option (Op × List UInt8)) (cwd : Dir) (w : World P) : Status × World P :=
  let r := announced line turn w
  let (io, w) := streams m redir cwd r.2
  outcome m line r.1 argv cwd io w

/-- A program is run and its exit code reported, where `fork` does not fail. -/
def launched (m : Machine Dir P) (argv : List (List UInt8)) (redir : Option (Op × List UInt8)) :
    Fork → Scene Dir P → Scene Dir P
  | .failed, s => s.print (forkLine none)
  | .child pid before, s =>
    let r := carriedOut m (forkLine (some pid)) (some before) argv redir s.cwd s.world
    Scene.print { s with world := r.2 }
      (exitCode ++ decimal (wexitstatus r.1.word) ++ [newline])

/-- The meaning of a command: its words, and its redirection. -/
def meaning (m : Machine Dir P) (argv : List (List UInt8)) (redir : Option (Op × List UInt8))
    (fork : Fork) (s : Scene Dir P) : Scene Dir P :=
  if argv.head? = some cd then
    { s with cwd := (argv.tail.head?.bind (m.chdir s.world.files s.cwd)).getD s.cwd }
  else launched m argv redir fork s

/-- The meaning of a command line, where this comes of `fork`. -/
def CommandLine.means (m : Machine Dir P) (fork : Fork) (c : CommandLine) (s : Scene Dir P) :
    Scene Dir P :=
  meaning m c.argv (c.redir.map fun r => (r.1, r.2.bytes)) fork s

/-- The line fits into `cmd_line`, and its words into `g_argv`. -/
structure CommandLine.Fits (c : CommandLine) : Prop where
  line : c.bytes.length ≤ 1022
  words : c.more.length + 1 ≤ if c.first.bytes = ls then 30 else 31

/-- The last scene is what comes of a session in the first, with a line typed
for each of `forks`; a line may be there only because a program has not read
it. -/
inductive Script (m : Machine Dir P) : List Fork → Scene Dir P → Scene Dir P → Prop
  | nil {s} : Script m [] s s
  | line {fork forks s s' rest} (c : CommandLine) (hfits : c.Fits)
      (hinput : s.world.input = c.bytes ++ newline :: rest)
      (h : Script m forks (c.means m fork ((s.print prompt).taken rest)) s') :
      Script m (fork :: forks) s s'

end meaning

/-! ### A line is parsed -/

section parse

/-- The entries of `g_argv` point to these words, and a null pointer
follows. -/
structure Args (s : State) (words : List (List UInt8)) : Prop where
  entries : ∃ ptrs rest, s.argv.entries = ptrs ++ .null :: rest ∧
    ptrs.map s.string = words.map some

/-- The first entries say it all: what is behind the null pointer is not looked
at. -/
theorem Args.of_take {s : State} {k : ℕ} {ptrs : List Ptr} {words : List (List UInt8)}
    (hentries : s.argv.entries.take k = ptrs ++ [.null])
    (hptrs : ptrs.map s.string = words.map some) : Args s words := by
  refine ⟨ptrs, s.argv.entries.drop k, ?_, hptrs⟩
  have hcut := List.take_append_drop k s.argv.entries
  rw [hentries, List.append_assoc] at hcut
  exact hcut.symm

/-- A list of values that are all there. -/
theorem mapM_eq {α β : Type} {f : α → Option β} {l : List α} {bs : List β}
    (h : l.map f = bs.map some) : l.mapM f = some bs := by
  induction l generalizing bs with
  | nil =>
    obtain rfl := List.map_eq_nil_iff.1 h.symm
    rfl
  | cons a l ih =>
    obtain ⟨b, bs, rfl, hb, hbs⟩ := List.map_eq_cons_iff.1 h.symm
    rw [List.mapM_cons, ← hb, ih hbs.symm]
    rfl

/-- `execvp` is given the words, up to the null pointer and nothing behind it.
The entries behind may be left over from a longer line. -/
theorem Args.args {s : State} {words : List (List UInt8)} (h : Args s words) :
    s.args = some words := by
  obtain ⟨ptrs, rest, hentries, hptrs⟩ := h.entries
  have hnull : ∀ p ∈ ptrs, decide (p ≠ .null) = true := by
    intro p hp
    rw [decide_eq_true_iff]
    rintro rfl
    have hmem : s.string .null ∈ words.map some := hptrs ▸ List.mem_map_of_mem hp
    obtain ⟨w, -, hw⟩ := List.mem_map.1 hmem
    cases hw
  have hmem : Ptr.null ∈ s.argv.entries := by
    rw [hentries]
    simp
  rw [State.args, if_pos hmem, hentries, List.takeWhile_append_of_pos hnull,
    List.takeWhile_cons_of_neg (by simp), List.append_nil]
  exact mapM_eq hptrs

/-- `g_argv[1]`: the second word, or the null pointer where there is none.
This is all that `cd` looks at. -/
theorem Args.second {s : State} {first : List UInt8} {words : List (List UInt8)}
    (h : Args s (first :: words)) : ∃ p, s.argv.entries[1]? = some p ∧
      (p = .null ∧ words = [] ∨ p ≠ .null ∧ ∃ w, words.head? = some w ∧ s.string p = some w) := by
  obtain ⟨ptrs, rest, hentries, hptrs⟩ := h.entries
  obtain ⟨p₀, ptrs, rfl, -, hptrs⟩ := List.map_eq_cons_iff.1 hptrs
  rw [hentries]
  cases words with
  | nil =>
    obtain rfl := List.map_eq_nil_iff.1 hptrs
    exact ⟨.null, rfl, .inl ⟨rfl, rfl⟩⟩
  | cons w words =>
    obtain ⟨p, ptrs, rfl, hp, -⟩ := List.map_eq_cons_iff.1 hptrs
    refine ⟨p, rfl, .inr ⟨?_, w, rfl, hp⟩⟩
    rintro rfl
    cases hp

/-- **A line that is typed is parsed** into its words and its redirection.
This is all that the rounds use of the parser. -/
theorem parse_line {c : CommandLine} (hfits : c.Fits) (s : State) (rest : List UInt8) :
    ∃ s₁ s₂ sep, readLine s (c.bytes ++ newline :: rest) = some (s₁, rest) ∧
      parse s₁ = some (s₂, sep) ∧ isCd s₂ = some (decide (c.first.bytes = cd)) ∧
      Args s₂ c.argv ∧ (sep.map s₂.cmdLine.string = c.redir.map fun r => some r.2.bytes) ∧
      s₂.redirStatus = c.status := by
  have hlen : (argvOfTokens c.first.bytes ((tokens c.more).map Prod.snd)).length < size := by
    rw [← fits_iff, Shell.Fits, List.length_map, tokens, List.length_map]
    exact hfits.words
  obtain ⟨s₁, b, post, hread, hstrip, -, hmem⟩ := readLine_eq hfits.line s rest
  obtain ⟨b', file, more, hcheck, -, hmem', hfile⟩ := checkRedir_eq hmem
  rw [CommandLine.command, ← gaps_tokens] at hmem'
  obtain ⟨s₂, mid, hsplit, hredir, -, hmem₂, hmid, ptrs, hentries, hptrs⟩ :=
    split_eq (s := { s₁ with cmdLine := b', redirStatus := c.status }) c.first.token
      (tokens c.more) (fun p hp => token_of_mem_tokens hp) hmem' hlen
  rw [gaps_tokens] at hmid
  have hargs : Args s₂ c.argv := by
    rw [CommandLine.argv, ← argvOfTokens_tokens]
    exact .of_take hentries hptrs
  refine ⟨s₁, s₂, file, hread, ?_, isCd_eq hentries hptrs, hargs, hfile _ ⟨mid, hmid, hmem₂⟩,
    hredir⟩
  show (strip s₁.cmdLine).bind _ = _
  rw [hstrip, Option.bind_some]
  show (checkRedir b).bind _ = _
  rw [hcheck, Option.bind_some]
  show (split _).bind _ = _
  rw [hsplit]
  rfl

end parse

/-! ### The child -/

section child

variable {Dir P : Type*} [DecidableEq P] {m : Machine Dir P} {t : FdTable ℕ} {k : Kernel P}

/-- **A file opened over a standard descriptor** is the stream of the
redirection; where it cannot be opened, the terminal stays. -/
theorem openOver_stands (h : Stands t k atTerminal) (op : Op) (cwd : Dir) (name : List UInt8) :
    Stands (openOver m op.flags op.fd cwd name t k).1 (openOver m op.flags op.fd cwd name t k).2
        (streams m (some (op, name)) cwd k.world).1 ∧
      (openOver m op.flags op.fd cwd name t k).2.world =
        (streams m (some (op, name)) cwd k.world).2 := by
  cases hopen : m.openStream op.flags cwd name k.world.files with
  | none =>
    simp only [openOver, Kernel.openFile, streams, hopen, and_true]
    exact h
  | some r =>
    simp only [openOver, Kernel.openFile, streams, hopen, and_true]
    exact h.over op.fd r.1 _

/-- **The redirection is put into effect** by what `sep` and `redir_status` say
of it: the streams of the child are those of the command. -/
theorem redirect_stands {c : CommandLine} {g : State} {sep : Option ℕ} (h : Stands t k atTerminal)
    (hsep : sep.map g.cmdLine.string = c.redir.map fun r => some r.2.bytes)
    (hstatus : g.redirStatus = c.status) (cwd : Dir) :
    ∃ t' k', redirect m g sep cwd t k = some (t', k') ∧
      Stands t' k' (streams m (c.redir.map fun r => (r.1, r.2.bytes)) cwd k.world).1 ∧
      k'.world = (streams m (c.redir.map fun r => (r.1, r.2.bytes)) cwd k.world).2 := by
  rcases hredir : c.redir with _ | ⟨op, file⟩
  · rw [hredir] at hsep
    obtain rfl := Option.map_eq_none_iff.1 hsep
    exact ⟨t, k, rfl, h, rfl⟩
  · rw [hredir] at hsep
    obtain ⟨p, rfl, hname⟩ := Option.map_eq_some_iff.1 hsep
    have hop : g.redirStatus = op.redir := by
      rw [hstatus, CommandLine.status, hredir]
    obtain ⟨hstands, hworld⟩ := openOver_stands (m := m) h op cwd file.bytes
    refine ⟨_, _, ?_, hstands, hworld⟩
    cases op <;> simp only [redirect, hop, Op.redir, hname, Option.map_some] <;> rfl

/-- **The program does what it does on the streams,** or the child ends with
`exit(1)` where none is found. -/
theorem exec_outcome {io : Std P} {other : Kernel P → Kernel P} {line : List UInt8} (turn : Turn)
    (h : Stands t k io) (hother : k.Shows other line) (argv : List (List UInt8)) (cwd : Dir) :
    (exec m other turn argv cwd t k).1 = (outcome m line turn argv cwd io k.world).1 ∧
      (exec m other turn argv cwd t k).2.world =
        (outcome m line turn argv cwd io k.world).2 := by
  unfold exec outcome
  cases m.execvp k.world.files cwd argv with
  | none => exact ⟨rfl, by rw [hother.last_eq]⟩
  | some program => exact h.exec_world program turn hother

/-- Opening a file over a descriptor keeps what others have open: it is the
child's table that changes. -/
theorem openOver_keeps (flags : Flags) (no : ℕ) (cwd : Dir) (name : List UInt8) :
    k.Keeps (openOver m flags no cwd name t k).2 := by
  have hkeeps := k.openFile_keeps m.toNames flags cwd name t
  unfold openOver
  split <;> rename_i hopen <;> rwa [hopen] at hkeeps

/-- So does a redirection of any kind.  The line that is printed where the
status is none of the three adds to what the terminal shows. -/
theorem redirect_keeps {g : State} {sep : Option ℕ} {cwd : Dir} {t' : FdTable ℕ} {k' : Kernel P}
    (h : redirect m g sep cwd t k = some (t', k')) : k.Keeps k' := by
  have hopen : ∀ {flags no} {name : Option (List UInt8)},
      (name.map fun name => openOver m flags no cwd name t k) = some (t', k') → k.Keeps k' := by
    intro flags no name h
    obtain ⟨name, -, heq⟩ := Option.map_eq_some_iff.1 h
    have hkeeps := openOver_keeps (m := m) (t := t) (k := k) flags no cwd name
    rwa [heq] at hkeeps
  unfold redirect at h
  split at h
  · cases h
    exact k.keeps_rfl
  · exact hopen h
  · exact hopen h
  · exact hopen h
  · cases h
    exact k.write_keeps t 1 bug

/-- And the line that the child prints first. -/
theorem announce_keeps {other : Kernel P → Kernel P} (hother : ∀ k : Kernel P, k.Keeps (other k))
    (turn : Turn) : k.Keeps (announce other turn t k).2 :=
  ((Kernel.keeps_turn hother turn k).trans (Kernel.write_keeps _ t 1 _)).trans
    (Kernel.keeps_turn hother _ _)

/-- Whatever program is found, or none, the streams without a position stay as
they are. -/
theorem exec_keeps {other : Kernel P → Kernel P} (hother : ∀ k : Kernel P, k.Keeps (other k))
    (turn : Turn) (argv : List (List UInt8)) (cwd : Dir) (t : FdTable ℕ) (k : Kernel P) :
    k.Keeps (exec m other turn argv cwd t k).2 := by
  unfold exec
  split
  · exact Program.exec_keeps hother _ turn t k
  · exact Kernel.keeps_last hother turn k

/-- **The child leaves the shell its streams** that have no position.  At the
prompt they are all at the terminal, which has none. -/
theorem child_keeps {other : Kernel P → Kernel P} {turn : Turn} {g : State} {sep : Option ℕ}
    {cwd : Dir} {r : Status × Kernel P} (hother : ∀ k : Kernel P, k.Keeps (other k))
    (h : child m other turn g sep cwd t k = some r) : k.Keeps r.2 := by
  have hkeeps := announce_keeps (t := t) (k := k) hother turn
  unfold child at h
  generalize announce other turn t k = p at h hkeeps
  obtain ⟨turn', k₁⟩ := p
  obtain ⟨⟨t', k'⟩, hredirect, h⟩ := Option.bind_eq_some_iff.1 h
  obtain ⟨argv, -, rfl⟩ := Option.map_eq_some_iff.1 h
  exact (hkeeps.trans (redirect_keeps hredirect)).trans (exec_keeps hother turn' argv cwd t' k')

/-- The child has shown its line, and its parent perhaps its own, before it or
behind it. -/
theorem announce_eq {other : Kernel P → Kernel P} {line : List UInt8} (turn : Turn)
    (hterminal : k.stream t 1 = some .terminal) (hother : k.Shows other line) :
    announce other turn t k =
      ((announced line turn k.world).1, { k with world := (announced line turn k.world).2 }) ∧
      k.Keeps { k with world := (announced line turn k.world).2 } := by
  have hkeeps := k.keeps_next turn line
  simp only [announce, announced, hother.next_eq]
  generalize turn.next (World.show · line) k.world = r at hkeeps
  obtain ⟨turn', w⟩ := r
  have hwrite := Kernel.write_terminal (k := { k with world := w }) hterminal (forkLine (some 0))
  have hprinted := hkeeps.trans (Kernel.write_keeps { k with world := w } t 1 (forkLine (some 0)))
  rw [hwrite] at hprinted ⊢
  exact ⟨(hother.mono hprinted).next_eq turn', hprinted.trans (Kernel.keeps_next _ turn' line)⟩

/-- **The child does what the command says,** for any words and redirection
that the parser has left. -/
theorem child_eq {c : CommandLine} {other : Kernel P → Kernel P} {line : List UInt8} {g : State}
    {sep : Option ℕ} (turn : Turn) (h : Stands t k atTerminal) (hother : k.Shows other line)
    (hargs : Args g c.argv)
    (hsep : sep.map g.cmdLine.string = c.redir.map fun r => some r.2.bytes)
    (hstatus : g.redirStatus = c.status) (cwd : Dir) :
    ∃ r, child m other turn g sep cwd t k = some r ∧ (r.1, r.2.world) =
      carriedOut m line turn c.argv (c.redir.map fun r => (r.1, r.2.bytes)) cwd k.world := by
  obtain ⟨hannounce, hkeeps⟩ := announce_eq turn (h.stream 1) hother
  unfold child carriedOut
  rw [hannounce]
  generalize announced line turn k.world = r at hkeeps
  obtain ⟨turn', w⟩ := r
  obtain ⟨t', k', hredirect, hstands, hworld⟩ :=
    redirect_stands (m := m) (k := { k with world := w }) (h.world w) hsep hstatus cwd
  have hshows := (hother.mono hkeeps).mono (redirect_keeps hredirect)
  obtain ⟨hst, hw⟩ := exec_outcome (m := m) turn' hstands hshows c.argv cwd
  refine ⟨exec m other turn' c.argv cwd t' k', ?_, ?_⟩
  · show (redirect m g sep cwd t { k with world := w }).bind _ = _
    rw [hredirect, Option.bind_some, hargs.args]
    rfl
  · rw [hst, hw, hworld]

end child

/-! ### Rounds -/

section rounds

variable {Dir P : Type*}

/-- The standard descriptors of the shell are at the terminal. -/
def AtPrompt (s : Process Dir P) : Prop := Stands s.fds s.kernel atTerminal

/-- What a user sees of the shell. -/
def Process.scene (s : Process Dir P) : Scene Dir P := ⟨s.cwd, s.kernel.world⟩

variable [DecidableEq P] {m : Machine Dir P} {s : Process Dir P}

/-- What the shell prints is shown at the terminal. -/
theorem AtPrompt.print_eq (h : AtPrompt s) (bytes : List UInt8) : s.print bytes =
    { s with kernel := { s.kernel with world := s.kernel.world.show bytes } } := by
  have hterminal : s.kernel.stream s.fds 1 = some .terminal := h.stream 1
  rw [Process.print, Kernel.write_terminal hterminal]

/-- The shell is at its terminal as before. -/
theorem AtPrompt.print (h : AtPrompt s) (bytes : List UInt8) : AtPrompt (s.print bytes) := by
  rw [h.print_eq]
  exact h.world _

/-- And a user sees what was printed. -/
theorem AtPrompt.scene_print (h : AtPrompt s) (bytes : List UInt8) :
    (s.print bytes).scene = s.scene.print bytes := by
  rw [h.print_eq]
  rfl

omit [DecidableEq P] in
/-- Streams at the terminal stay there, whatever a child does. -/
theorem AtPrompt.keeps (h : AtPrompt s) {k : Kernel P} (hk : s.kernel.Keeps k) :
    AtPrompt { s with kernel := k } :=
  ⟨fun fd => hk.stream trivial (h.stream fd), fun _ _ _ _ => trivial⟩

omit [DecidableEq P] in
/-- A line that is typed is fetched into `cmd_line`. -/
theorem getLine_eq (h : AtPrompt s) {stream rest : List UInt8} {g : State}
    (hinput : s.kernel.world.input = stream) (hread : readLine s.globals stream = some (g, rest)) :
    s.getLine = some (s.taken g rest) := by
  have hterminal : s.kernel.stream s.fds 0 = some .terminal := h.stream 0
  simp only [Process.getLine, hterminal, hinput, hread, Option.map_some]

omit [DecidableEq P] in
/-- **The directory is changed** to what the second word means; without one, or
where it means none, it stays. -/
theorem changeDir_eq {first : List UInt8} {words : List (List UInt8)}
    (h : Args s.globals (first :: words)) : changeDir m s = some { s with
      cwd := (words.head?.bind (m.chdir s.kernel.world.files s.cwd)).getD s.cwd } := by
  obtain ⟨p, hp, ⟨rfl, rfl⟩ | ⟨hne, w, hw, hstring⟩⟩ := h.second
  · rw [changeDir, hp, Option.bind_some, if_pos rfl]
    rfl
  · rw [changeDir, hp, Option.bind_some, if_neg hne, hstring, hw]
    rfl

/-- **A program is run** with its redirection, and reported.  Where `fork`
fails the shell says so and goes on. -/
theorem run_eq {c : CommandLine} {sep : Option ℕ} (fork : Fork) (h : AtPrompt s)
    (hargs : Args s.globals c.argv)
    (hsep : sep.map s.globals.cmdLine.string = c.redir.map fun r => some r.2.bytes)
    (hstatus : s.globals.redirStatus = c.status) (hcd : c.argv.head? ≠ some cd) :
    ∃ s', run m fork sep s = some s' ∧ AtPrompt s' ∧ s'.fds = s.fds ∧
      s'.scene = c.means m fork s.scene := by
  rw [CommandLine.means, meaning, if_neg hcd]
  cases fork with
  | failed => exact ⟨_, rfl, h.print _, rfl, h.scene_print _⟩
  | child pid before =>
    have hother : s.kernel.Shows (fun k => (k.write s.fds 1 (forkLine (some pid))).2)
        (forkLine (some pid)) := fun k hk => by
      have hterminal : k.stream s.fds 1 = some .terminal := hk.stream trivial (h.stream 1)
      simp only [Kernel.write_terminal hterminal]
    obtain ⟨r, hchild, hr⟩ := child_eq (m := m) (some before) h hother hargs hsep hstatus s.cwd
    have hkeeps := h.keeps (child_keeps (fun k => k.write_keeps s.fds 1 _) hchild)
    refine ⟨Process.report { s with kernel := r.2 } r.1, ?_, hkeeps.print _, rfl, ?_⟩
    · rw [run, hchild]
      rfl
    · rw [Process.report, hkeeps.scene_print]
      simp only [Process.scene, launched, ← hr]

/-- **A round does what the line means:** the parser has the words, and `cd` is
told from a program by the first of them. -/
theorem round_means {c : CommandLine} (hfits : c.Fits) (fork : Fork) (h : AtPrompt s)
    {rest : List UInt8} (hinput : s.kernel.world.input = c.bytes ++ newline :: rest) :
    ∃ s', round m fork s = some s' ∧ AtPrompt s' ∧ s'.fds = s.fds ∧
      s'.scene = c.means m fork ((s.scene.print prompt).taken rest) := by
  obtain ⟨g₁, g₂, sep, hread, hparse, hcd, hargs, hsep, hstatus⟩ := parse_line hfits s.globals rest
  have hprompt := h.print prompt
  have hline := getLine_eq hprompt (by rw [h.print_eq]; exact hinput) hread
  have htaken : AtPrompt ((s.print prompt).taken g₂ rest) := hprompt.world _
  have hscene : ((s.print prompt).taken g₂ rest).scene = (s.scene.print prompt).taken rest := by
    rw [← h.scene_print]
    rfl
  obtain ⟨words, hwords⟩ : ∃ words, c.argv = c.first.bytes :: words := by
    rw [CommandLine.argv, argvOf]
    split_ifs <;> exact ⟨_, rfl⟩
  have hround : round m fork s = if decide (c.first.bytes = cd)
      then changeDir m ((s.print prompt).taken g₂ rest)
      else run m fork sep ((s.print prompt).taken g₂ rest) := by
    simp only [round, hline, perform, Process.taken, hparse, Option.bind_some, hcd]
  rw [hround, ← hscene]
  by_cases hfirst : c.first.bytes = cd
  · rw [if_pos (decide_eq_true hfirst)]
    rw [hwords] at hargs
    refine ⟨_, changeDir_eq hargs, htaken, rfl, ?_⟩
    rw [CommandLine.means, meaning, hwords, if_pos (by rw [hfirst]; rfl)]
    rfl
  · rw [if_neg (by simpa using hfirst)]
    have hne : c.argv.head? ≠ some cd := by
      rw [hwords]
      exact fun heq => hfirst (Option.some.inj heq)
    exact run_eq fork htaken hargs hsep hstatus hne

/-- **A session, round after round,** by induction on its lines: the state
behind one round is the scene of the next. -/
theorem run_script {forks : List Fork} {w w' : Scene Dir P} (hscript : Script m forks w w')
    (h : AtPrompt s) (hs : s.scene = w) :
    ∃ s', rounds m forks s = some s' ∧ AtPrompt s' ∧ s'.fds = s.fds ∧ s'.scene = w' := by
  induction hscript generalizing s with
  | nil => exact ⟨s, rfl, h, rfl, hs⟩
  | @line fork forks w w' rest c hfits hinput hrest ih =>
    subst hs
    obtain ⟨s₁, hround, hat, hfds, hscene⟩ := round_means (m := m) hfits fork h hinput
    obtain ⟨s₂, hrounds, hat₂, hfds₂, hscene₂⟩ := ih hat hscene
    refine ⟨s₂, ?_, hat₂, hfds₂.trans hfds, hscene₂⟩
    rw [rounds, hround, Option.bind_some, hrounds]

end rounds

/-- **A session does what its lines mean.**  Let lines be typed at the prompt
that are written out by the grammar of command lines and fit into the buffers
of the shell, where a line may come up only because no program has read it from
the terminal.  Then as many rounds of the loop, parser, `fork`, `open`, `dup2`,
`execvp` and `waitpid` included, lead from the prompt to the prompt and to what
the lines mean one after the other, whatever the buffers and descriptors of the
shell held before, whatever `fork` returns, and wherever the line that the
parent prints falls among the calls of the child. -/
theorem executes_script {Dir P : Type*} [DecidableEq P] (m : Machine Dir P) {forks : List Fork}
    {s : Process Dir P} {w : Scene Dir P} (h : AtPrompt s) (hscript : Script m forks s.scene w) :
    ∃ s', rounds m forks s = some s' ∧ AtPrompt s' ∧ s'.fds = s.fds ∧ s'.scene = w :=
  run_script hscript h rfl

/-- A machine on which every name is a file and every program writes its
arguments. -/
def echoing : Machine Unit (List UInt8) where
  readable files _ name := if (files name).isSome then some name else none
  writable _ _ name := some name
  chdir _ _ _ := none
  execvp _ _ argv := some (.write 1 argv.tail.flatten fun _ => .stop (.exited 0))

/-- The shell at its first prompt, with what an earlier line may have left in
its globals. -/
def fresh (input : List UInt8) : Process Unit (List UInt8) where
  globals := stale
  fds := [some 0, some 0, some 0]
  cwd := ()
  kernel := ⟨⟨fun _ => none, input, []⟩, [.terminal]⟩

/-- Its three descriptors are one open file, the terminal.  It may be shared,
as it has no position. -/
theorem atPrompt_fresh (input : List UInt8) : AtPrompt (fresh input) where
  stream fd := by
    match fd with
    | 0 | 1 | 2 => rfl
  apart _ _ _ _ := trivial

/-- The file `f`. -/
def fileF : FileName := ⟨[102], by simp; decide⟩

/-- `e` with one letter, and the output into file `f`. -/
def echoInto (c : UInt8) (hc : wordByte c) (op : Op) : CommandLine where
  before := 0
  first := ⟨[101], nofun, by simp; decide⟩
  more := [(0, ⟨[c], nofun, fun x hx => by rwa [List.mem_singleton.1 hx]⟩)]
  after := 0
  redir := some (op, fileF)

/-- The line fits. -/
theorem fits_echoInto {c : UInt8} (hc : wordByte c) (op : Op) : (echoInto c hc op).Fits := by
  cases op <;> exact ⟨Nat.le_of_ble_eq_true rfl, Nat.le_of_ble_eq_true rfl⟩

/-- `e a>f` and `e b>>f`. -/
def echoTwice : List UInt8 := [101, 32, 97, 62, 102, 10, 101, 32, 98, 62, 62, 102, 10]

/-- Two children, the second one done before its parent prints. -/
def twoChildren : List Fork := [.child 7 0, .child 8 9]

/-- What they come to. -/
theorem script_echoTwice : ∃ w, Script echoing twoChildren (fresh echoTwice).scene w ∧
    w.world.files [102] = some [97, 98] ∧ w.world.input = [] :=
  ⟨_, .line (echoInto 97 (by decide) .output) (fits_echoInto _ _) rfl
    (.line (echoInto 98 (by decide) .append) (fits_echoInto _ _) rfl .nil), rfl, rfl⟩

/-- Both outputs are in the file, the second behind the first. -/
theorem executes_script_echo : ∃ s', rounds echoing twoChildren (fresh echoTwice) = some s' ∧
    AtPrompt s' ∧ s'.kernel.world.files [102] = some [97, 98] := by
  obtain ⟨w, hscript, hfiles, -⟩ := script_echoTwice
  obtain ⟨s', hrounds, hat, -, rfl⟩ :=
    executes_script echoing (atPrompt_fresh echoTwice) hscript
  exact ⟨s', hrounds, hat, hfiles⟩

end Shell
end OSNetWorkCode
