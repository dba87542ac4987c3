/-
# Which commands the shell is given

The loop of `main` in `1017/shell/myshell.c`, and of its first version in
`0921/shell/myshell.c`, which knows no redirections: a line is fetched, its
last byte is overwritten, and what is left is handed to the parser.  At the end
of the input the loop goes on without a line.  Where the parser is undefined on
a line, nothing behind it is handed on.

A command that is carried out has the shell's input for its own, unless it is
redirected: it may read lines that were meant for the shell, and where the
input is a file that can be positioned, even `exit(1)` of a child that has
found no program moves it back.  So what is left of the input behind a command
is whatever the command has left of it (`Hands.goes`); only `cd` leaves it
alone.  The commands that touch nothing are a condition of its own
(`Untouched`).

The last byte is taken for a newline.  It is none where the input ends without
one, and where a line does not fit into `cmd_line`; then the command loses it,
and the rest of the line is a command of its own.  `hands_lines_iff` says that
otherwise, and where no command touches the input, the commands are the lines.
It says so twice: of `Hands`, for every input, and of the rounds of either
shell at its terminal, on every machine with any programs, whose commands
`Version.handed` lists (`hands_handed`).
-/

import OSNetWorkCode.Shell.Versions

namespace OSNetWorkCode
namespace Shell

open Unix

/-- Where the parser gets through, touching nothing in front of `cmd_line`, and
what `strcmp` finds when the first word is compared with `cd`. -/
def Version.Goes (v : Version) (s s' : State) (cmp : Bool) : Prop :=
  ∃ file, v.parse s = some (s', file) ∧ isCd s' = some cmp ∧ s'.cmdLine.front = s.cmdLine.front

/-- A command that was handed to the parser. -/
structure Handed where
  /-- The contents of `cmd_line`. -/
  cmd : List UInt8
  /-- The input behind what was fetched. -/
  rest : List UInt8
  /-- The input at the next prompt. -/
  left : List UInt8

/-- Given a stream, the shell hands these commands to the parser, one after the
other.  A command that is carried out may do anything to the input, unless it
is `cd`. -/
inductive Hands (v : Version) : State → List UInt8 → List Handed → Prop
  | eof {s stream} (hread : readLine s stream = none) : Hands v s stream []
  | goes {s s₁ s₂ stream rest b cmd cmp left hs} (hread : readLine s stream = some (s₁, rest))
      (hstrip : strip s₁.cmdLine = some b) (hcmd : b.string 0 = some cmd)
      (hgoes : v.Goes s₁ s₂ cmp) (hcd : cmp = true → left = rest) (hnext : Hands v s₂ left hs) :
      Hands v s stream (⟨cmd, rest, left⟩ :: hs)
  | stuck {s s₁ stream rest b cmd} (hread : readLine s stream = some (s₁, rest))
      (hstrip : strip s₁.cmdLine = some b) (hcmd : b.string 0 = some cmd)
      (hstuck : ∀ s₂ cmp, ¬ v.Goes s₁ s₂ cmp) : Hands v s stream [⟨cmd, rest, rest⟩]

/-- No command that was carried out has read from the shell's input or moved
it: the next prompt finds what `fgets` has left. -/
def Untouched (hs : List Handed) : Prop := ∀ h ∈ hs, h.left = h.rest

/-- Given a stream that no command touches, these are the commands. -/
def Commands (v : Version) (s : State) (stream : List UInt8) (cmds : List (List UInt8)) : Prop :=
  ∃ hs, Hands v s stream hs ∧ Untouched hs ∧ hs.map Handed.cmd = cmds

section rounds

variable {Dir P : Type*} [DecidableEq P]

/-- The string in `cmd_line` behind the overwritten byte. -/
def Process.command (s : Process Dir P) : List UInt8 :=
  ((strip s.globals.cmdLine).bind (·.string 0)).getD []

/-- The commands that are handed to the parser in these rounds, and the input
in front of and behind each.  A round that is not got through is the last
one. -/
def Version.handed (v : Version) (m : Machine Dir P) : List Fork → Process Dir P → List Handed
  | [], _ => []
  | fork :: forks, s =>
    let next := v.round m fork s
    let later := (next.map (v.handed m forks)).getD []
    match (s.print prompt).getLine with
    | none => later
    | some s₁ =>
      ⟨s₁.command, s₁.kernel.world.input, (next.getD s₁).kernel.world.input⟩ :: later

end rounds

/-- The lines of a stream: what lies between newlines, and what follows the
last one, if anything does. -/
def lines (stream : List UInt8) : List (List UInt8) :=
  let pieces := stream.splitOn newline
  if pieces.getLast? = some [] then pieces.dropLast else pieces

/-- The line up to a redirection, if the shell knows them, has a word, and no
more of them than there is room for. -/
def Version.Parses : Version → List UInt8 → Prop
  | .v0921, line => Fits (words line)
  | .v1017, line => Fits (words (upToRedir line))

/-- Whether the parser gets through a line can be computed. -/
instance : ∀ v line, Decidable (Version.Parses v line)
  | .v0921, line => inferInstanceAs (Decidable (Fits (words line)))
  | .v1017, line => inferInstanceAs (Decidable (Fits (words (upToRedir line))))

/-- The stream is empty or ends in a newline, its lines fit into `cmd_line`,
and the parser gets through those that others follow. -/
structure Plain (v : Version) (stream : List UInt8) : Prop where
  ended : stream = [] ∨ stream.getLast? = some newline
  short : ∀ l ∈ lines stream, l.length ≤ 1022
  parses : ∀ l ∈ (lines stream).dropLast, v.Parses l

/-! ### Lines -/

/-- The first line of a stream, and the lines behind it. -/
theorem lines_append {l : List UInt8} (hl : newline ∉ l) (rest : List UInt8) :
    lines (l ++ newline :: rest) = l :: lines rest := by
  obtain ⟨p, ps, hps⟩ := List.exists_cons_of_ne_nil (List.splitOn_ne_nil newline rest)
  unfold lines
  rw [List.splitOn_append_cons_self_of_not_mem hl, hps]
  dsimp only
  rw [List.getLast?_cons_cons, List.dropLast_cons_cons]
  split_ifs <;> rfl

/-- A last line without a newline is a line too. -/
theorem lines_tail {l : List UInt8} (hl : newline ∉ l) (hne : l ≠ []) : lines l = [l] := by
  unfold lines
  rw [List.splitOn_eq_singleton hl]
  exact if_neg fun h => hne (Option.some.inj h)

/-- Only an empty stream has no lines. -/
theorem lines_eq_nil {stream : List UInt8} (h : lines stream = []) : stream = [] := by
  by_cases hnl : newline ∈ stream
  · obtain ⟨l, rest, rfl, hl⟩ := List.eq_append_cons_of_mem hnl
    rw [lines_append hl] at h
    cases h
  · by_contra hne
    rw [lines_tail hnl hne] at h
    cases h

/-- A line more in front of a stream: it has to be short, and the parser has to
get through it where anything follows. -/
theorem plain_append {v : Version} {l : List UInt8} (hl : newline ∉ l) (rest : List UInt8) :
    Plain v (l ++ newline :: rest) ↔
      l.length ≤ 1022 ∧ (rest ≠ [] → v.Parses l) ∧ Plain v rest := by
  have hended : (l ++ newline :: rest).getLast? = some newline ↔
      rest = [] ∨ rest.getLast? = some newline := by
    rw [List.getLast?_append]
    cases rest with
    | nil => exact iff_of_true rfl (.inl rfl)
    | cons c rest => simp
  constructor
  · rintro ⟨hend, hshort, hparses⟩
    rw [lines_append hl] at hshort hparses
    rw [List.forall_mem_cons] at hshort
    refine ⟨hshort.1, fun hne => ?_, hended.1 (hend.resolve_left (by simp)), hshort.2, ?_⟩
    · rw [List.dropLast_cons_of_ne_nil fun h => hne (lines_eq_nil h)] at hparses
      exact hparses l List.mem_cons_self
    · intro l' hl'
      refine hparses l' ?_
      rw [List.dropLast_cons_of_ne_nil fun h => by rw [h] at hl'; cases hl']
      exact List.mem_cons_of_mem _ hl'
  · rintro ⟨hlen, hparse, hend, hshort, hparses⟩
    refine ⟨.inr (hended.2 hend), ?_, ?_⟩
    · rw [lines_append hl, List.forall_mem_cons]
      exact ⟨hlen, hshort⟩
    · rw [lines_append hl]
      by_cases hne : rest = []
      · subst hne
        intro l' hl'
        cases hl'
      · rw [List.dropLast_cons_of_ne_nil fun h => hne (lines_eq_nil h), List.forall_mem_cons]
        exact ⟨hparse hne, hparses⟩

/-- The empty stream is plain. -/
theorem plain_nil (v : Version) : Plain v [] :=
  ⟨.inl rfl, fun _ h => absurd h List.not_mem_nil, fun _ h => absurd h List.not_mem_nil⟩

/-! ### What is fetched -/

/-- Something is fetched as long as there is any input, so that each round
takes at least a byte. -/
theorem fetched_ne_nil {stream : List UInt8} (hne : stream ≠ []) : fetched stream ≠ [] := by
  obtain ⟨c, rest, rfl⟩ := List.exists_cons_of_ne_nil hne
  have hfirst : firstLine (c :: rest) ≠ [] := by
    unfold firstLine
    by_cases hc : c = newline <;> simp [hc]
  unfold fetched
  rw [ne_eq, List.take_eq_nil_iff, not_or]
  exact ⟨by decide, hfirst⟩

/-- What is fetched is where the stream begins. -/
theorem fetched_initial (stream : List UInt8) : fetched stream <+: stream := by
  refine (List.take_prefix _ _).trans ?_
  have hcut := List.takeWhile_append_dropWhile (p := (· ≠ newline)) (l := stream)
  refine ⟨(stream.dropWhile (· ≠ newline)).drop 1, ?_⟩
  rw [firstLine, List.append_assoc, List.take_append_drop]
  exact hcut

/-- It fits into `cmd_line` with its terminator. -/
theorem length_fetched (stream : List UInt8) : (fetched stream).length ≤ 1023 :=
  List.length_take_le _ _

/-! ### The loop -/

section loop

variable {v : Version} {s : State} {stream : List UInt8}

/-- The parser gets through what it is handed exactly where the words fit: a
line that touches the bytes in front of `cmd_line` has no word up to its
redirection. -/
theorem goes_iff {b : Block num} {cmd post : List UInt8} (hstrip : strip s.cmdLine = some b)
    (hfront : b.front = s.cmdLine.front) (hmem : b.mem = cmd ++ 0 :: post) (h0 : 0 ∉ cmd) :
    (∃ s' cmp, v.Goes s s' cmp) ↔ v.Parses cmd := by
  cases v with
  | v0921 =>
    have hsplit := split_iff (s := { s with cmdLine := b }) hmem h0
    have hparse : Version.v0921.parse s =
        (split { s with cmdLine := b }).bind fun s' => some (s', none) := by
      show (strip s.cmdLine).bind _ = _
      rw [hstrip]
      rfl
    refine Iff.trans ?_ hsplit
    constructor
    · rintro ⟨s', cmp, file, hgoes, hcd, -⟩
      rw [hparse] at hgoes
      obtain ⟨s₁, hs₁, h⟩ := Option.bind_eq_some_iff.1 hgoes
      cases h
      exact ⟨s', cmp, hs₁, hcd⟩
    · rintro ⟨s', cmp, hs', hcd⟩
      refine ⟨s', cmp, none, ?_, hcd, (split_front hs').trans hfront⟩
      rw [hparse, hs']
      rfl
  | v1017 =>
    rw [show Version.v1017.Parses cmd = Fits (words (upToRedir cmd)) from rfl,
      ← safe_iff_of_strip hstrip hfront hmem h0]
    constructor
    · rintro ⟨s', cmp, file, hgoes, hcd, hsame⟩
      exact ⟨s', file, cmp, hgoes, hcd, hsame⟩
    · rintro ⟨s', file, cmp, hgoes, hcd, hsame⟩
      exact ⟨s', cmp, file, hgoes, hcd, hsame⟩

/-- **One round of the loop:** what is fetched, less its last byte, is handed
to the parser, which gets through it or not.  All that is shown of `Hands`
rests on this equation. -/
theorem round_eq (hne : stream ≠ []) (h0 : 0 ∉ stream) (s : State) :
    ∃ s₁, ((∃ s₂ cmp, v.Goes s₁ s₂ cmp) ↔ v.Parses (fetched stream).dropLast) ∧
      ∀ hs, Hands v s stream hs ↔
        (∃ s₂ cmp left hs', v.Goes s₁ s₂ cmp ∧
          (cmp = true → left = stream.drop (fetched stream).length) ∧ Hands v s₂ left hs' ∧
          hs = ⟨(fetched stream).dropLast, stream.drop (fetched stream).length, left⟩ :: hs') ∨
        (∀ s₂ cmp, ¬ v.Goes s₁ s₂ cmp) ∧
          hs = [⟨(fetched stream).dropLast, stream.drop (fetched stream).length,
            stream.drop (fetched stream).length⟩] := by
  have hcut := List.dropLast_concat_getLast (fetched_ne_nil hne)
  have hnul : 0 ∉ fetched stream := fun h => h0 ((fetched_initial stream).subset h)
  obtain ⟨s₁, b, post, hread, hstrip, hfront₁, hfront, hmem⟩ :=
    readLine_cut hcut.symm (by rw [hcut]; exact hnul) s
  rw [hcut] at hread
  have hinit : 0 ∉ (fetched stream).dropLast := fun h => hnul (List.dropLast_subset _ h)
  have hwhole : b.mem = [] ++ ((fetched stream).dropLast ++ 0 :: post) := hmem
  have hcmd : b.string 0 = some (fetched stream).dropLast := Block.string_eq hwhole rfl hinit
  refine ⟨s₁, goes_iff hstrip (hfront.trans hfront₁.symm) hmem hinit, fun hs => ?_⟩
  constructor
  · intro h
    cases h with
    | eof hread' =>
      rw [hread] at hread'
      cases hread'
    | goes hread' hstrip' hcmd' hgoes hcd hnext =>
      rw [hread] at hread'
      cases hread'
      obtain rfl := Option.some.inj (hstrip.symm.trans hstrip')
      obtain rfl := Option.some.inj (hcmd.symm.trans hcmd')
      exact .inl ⟨_, _, _, _, hgoes, hcd, hnext, rfl⟩
    | stuck hread' hstrip' hcmd' hstuck =>
      rw [hread] at hread'
      cases hread'
      obtain rfl := Option.some.inj (hstrip.symm.trans hstrip')
      obtain rfl := Option.some.inj (hcmd.symm.trans hcmd')
      exact .inr ⟨hstuck, rfl⟩
  · rintro (⟨s₂, cmp, left, hs', hgoes, hcd, hnext, rfl⟩ | ⟨hstuck, rfl⟩)
    · exact .goes hread hstrip hcmd hgoes hcd hnext
    · exact .stuck hread hstrip hcmd hstuck

/-- A round whose command touches nothing: the next prompt finds what `fgets`
has left.  This is `round_eq` with the input behind each command known. -/
theorem commands_round (hne : stream ≠ []) (h0 : 0 ∉ stream) (s : State) :
    ∃ s₁, ((∃ s₂ cmp, v.Goes s₁ s₂ cmp) ↔ v.Parses (fetched stream).dropLast) ∧
      ∀ cmds, Commands v s stream cmds ↔
        (∃ s₂ cmp cmds', v.Goes s₁ s₂ cmp ∧
          Commands v s₂ (stream.drop (fetched stream).length) cmds' ∧
          cmds = (fetched stream).dropLast :: cmds') ∨
        (∀ s₂ cmp, ¬ v.Goes s₁ s₂ cmp) ∧ cmds = [(fetched stream).dropLast] := by
  obtain ⟨s₁, hparses, hround⟩ := round_eq (v := v) hne h0 s
  refine ⟨s₁, hparses, fun cmds => ?_⟩
  constructor
  · rintro ⟨hs, hhands, hleft, rfl⟩
    rcases (hround hs).1 hhands with ⟨s₂, cmp, left, hs', hgoes, -, hnext, rfl⟩ | ⟨hstuck, rfl⟩
    · obtain ⟨hhere, hlater⟩ := List.forall_mem_cons.1 hleft
      have hleft' : left = stream.drop (fetched stream).length := hhere
      subst hleft'
      exact .inl ⟨s₂, cmp, _, hgoes, ⟨hs', hnext, hlater, rfl⟩, rfl⟩
    · exact .inr ⟨hstuck, rfl⟩
  · rintro (⟨s₂, cmp, cmds', hgoes, ⟨hs', hnext, hlater, rfl⟩, rfl⟩ | ⟨hstuck, rfl⟩)
    · refine ⟨_, (hround _).2 (.inl ⟨s₂, cmp, _, hs', hgoes, fun _ => rfl, hnext, rfl⟩), ?_, rfl⟩
      exact List.forall_mem_cons.2 ⟨rfl, hlater⟩
    · refine ⟨_, (hround _).2 (.inr ⟨hstuck, rfl⟩), ?_, rfl⟩
      exact List.forall_mem_singleton.2 rfl

/-- At the end of the input there is no line, and no command. -/
theorem hands_nil {hs : List Handed} : Hands v s [] hs ↔ hs = [] := by
  have hnone : readLine s [] = none := rfl
  constructor
  · intro h
    cases h with
    | eof hread => rfl
    | goes hread | stuck hread =>
      rw [hnone] at hread
      cases hread
  · rintro rfl
    exact .eof hnone

/-- Also if no command touches anything. -/
theorem commands_nil {cmds : List (List UInt8)} : Commands v s [] cmds ↔ cmds = [] := by
  constructor
  · rintro ⟨hs, hhands, -, rfl⟩
    rw [hands_nil.1 hhands, List.map_nil]
  · rintro rfl
    exact ⟨[], hands_nil.2 rfl, fun _ h => absurd h List.not_mem_nil, rfl⟩

/-- Less is left of the stream after a round.  The inductions below are on its
length. -/
theorem length_rest (hne : stream ≠ []) :
    (stream.drop (fetched stream).length).length < stream.length := by
  have hstream := List.length_pos_iff.2 hne
  have hfetched := List.length_pos_iff.2 (fetched_ne_nil hne)
  rw [List.length_drop]
  omega

/-- No zero byte is left where there was none. -/
theorem zero_notMem_rest (h0 : 0 ∉ stream) : 0 ∉ stream.drop (fetched stream).length :=
  fun h => h0 (List.mem_of_mem_drop h)

/-- **The shell hands something to the parser,** on every stream, also if no
command touches it. -/
theorem exists_commands (h0 : 0 ∉ stream) : ∃ cmds, Commands v s stream cmds := by
  induction hn : stream.length using Nat.strong_induction_on generalizing s stream with
  | _ n ih =>
    by_cases hne : stream = []
    · subst hne
      exact ⟨[], commands_nil.2 rfl⟩
    · obtain ⟨s₁, -, hround⟩ := commands_round (v := v) hne h0 s
      by_cases hgoes : ∃ s₂ cmp, v.Goes s₁ s₂ cmp
      · obtain ⟨s₂, cmp, hgoes⟩ := hgoes
        obtain ⟨cmds, hcmds⟩ := ih _ (hn ▸ length_rest hne) (s := s₂) (zero_notMem_rest h0) rfl
        exact ⟨_, (hround _).2 (.inl ⟨s₂, cmp, cmds, hgoes, hcmds, rfl⟩)⟩
      · exact ⟨_, (hround _).2 (.inr ⟨fun s₂ cmp h => hgoes ⟨s₂, cmp, h⟩, rfl⟩)⟩

/-- The first command is what was fetched, less its last byte, whatever it does
to the input. -/
theorem head_of_hands {hs : List Handed} (hne : stream ≠ []) (h0 : 0 ∉ stream)
    (h : Hands v s stream hs) : (hs.map Handed.cmd).head? = some (fetched stream).dropLast := by
  obtain ⟨s₁, -, hround⟩ := round_eq (v := v) hne h0 s
  rcases (hround hs).1 h with ⟨s₂, cmp, left, hs', -, -, -, rfl⟩ | ⟨-, rfl⟩ <;> rfl

/-- **The first command is cut short** where what was fetched is no longer than
the first line: its last byte is not the newline. -/
theorem ne_lines_of_short {hs : List Handed} {l : List UInt8} (hne : stream ≠ [])
    (h0 : 0 ∉ stream) (hfirst : (lines stream).head? = some l)
    (hlen : (fetched stream).length ≤ l.length) (h : Hands v s stream hs) :
    hs.map Handed.cmd ≠ lines stream := by
  intro heq
  have hhead := head_of_hands hne h0 h
  rw [heq, hfirst, Option.some.injEq] at hhead
  have hpos := List.length_pos_iff.2 (fetched_ne_nil hne)
  rw [hhead, List.length_dropLast] at hlen
  omega

/-- A line that fits is handed on whole, without its newline. -/
theorem round_line {l : List UInt8} (hl : newline ∉ l) (hlen : l.length ≤ 1022)
    (rest : List UInt8) (h0 : 0 ∉ l ++ newline :: rest) (s : State) :
    ∃ s₁, ((∃ s₂ cmp, v.Goes s₁ s₂ cmp) ↔ v.Parses l) ∧
      ∀ cmds, Commands v s (l ++ newline :: rest) cmds ↔
        (∃ s₂ cmp cmds', v.Goes s₁ s₂ cmp ∧ Commands v s₂ rest cmds' ∧ cmds = l :: cmds') ∨
        (∀ s₂ cmp, ¬ v.Goes s₁ s₂ cmp) ∧ cmds = [l] := by
  have hround := commands_round (v := v) (by simp) h0 s
  have hfetched : fetched (l ++ newline :: rest) = l ++ [newline] := take_firstLine hl hlen rest
  rwa [hfetched, List.dropLast_concat, drop_line] at hround

/-- **A line that fits, in front of a stream** of which the commands are known:
it is the first command, and those of the stream follow if the parser gets
through it. -/
theorem commands_line {l rest : List UInt8} {cmds : List (List UInt8)} (hl : newline ∉ l)
    (hlen : l.length ≤ 1022) (h0 : 0 ∉ l ++ newline :: rest)
    (hrest : ∀ s₂ cmds', Commands v s₂ rest cmds' → (cmds' = lines rest ↔ Plain v rest))
    (h : Commands v s (l ++ newline :: rest) cmds) :
    cmds = lines (l ++ newline :: rest) ↔ Plain v (l ++ newline :: rest) := by
  obtain ⟨s₁, hparses, hround⟩ := round_line (v := v) hl hlen rest h0 s
  rw [lines_append hl, plain_append hl]
  rcases (hround cmds).1 h with ⟨s₂, cmp, cmds', hgoes, hcmds, rfl⟩ | ⟨hstuck, rfl⟩
  · rw [List.cons_inj_right, hrest s₂ cmds' hcmds]
    exact ⟨fun hp => ⟨hlen, fun _ => hparses.1 ⟨s₂, cmp, hgoes⟩, hp⟩, fun hp => hp.2.2⟩
  · -- nothing behind it is handed on, so nothing may follow
    have hnot : ¬ v.Parses l := fun hp => by
      obtain ⟨s₂, cmp, hgoes⟩ := hparses.2 hp
      exact hstuck s₂ cmp hgoes
    rw [List.cons_inj_right]
    constructor
    · intro hnone
      obtain rfl := lines_eq_nil hnone.symm
      exact ⟨hlen, fun hne => absurd rfl hne, plain_nil v⟩
    · rintro ⟨-, hp, -⟩
      by_cases hnone : rest = []
      · rw [hnone]
        rfl
      · exact absurd (hp hnone) hnot

/-- **The commands are the lines** exactly on a plain stream, by induction on
its length: a first line that fits is taken off, and one that does not, or has
no newline, is cut short. -/
theorem commands_iff {cmds : List (List UInt8)} (h0 : 0 ∉ stream) (h : Commands v s stream cmds) :
    cmds = lines stream ↔ Plain v stream := by
  induction hn : stream.length using Nat.strong_induction_on generalizing s stream cmds with
  | _ n ih =>
    by_cases hne : stream = []
    · subst hne
      exact iff_of_true (commands_nil.1 h) (plain_nil v)
    by_cases hnl : newline ∈ stream
    · obtain ⟨l, rest, rfl, hl⟩ := List.eq_append_cons_of_mem hnl
      by_cases hlen : l.length ≤ 1022
      · refine commands_line hl hlen h0 (fun s₂ cmds' hcmds => ih rest.length ?_ ?_ hcmds rfl) h
        · rw [← hn, List.length_append, List.length_cons]
          omega
        · exact fun hmem => h0 (List.mem_append_right _ (List.mem_cons_of_mem _ hmem))
      · obtain ⟨hs, hhands, -, rfl⟩ := h
        have hfirst : (lines (l ++ newline :: rest)).head? = some l := by
          rw [lines_append hl]
          rfl
        have hshort := length_fetched (l ++ newline :: rest)
        refine iff_of_false (ne_lines_of_short hne h0 hfirst (by omega) hhands) fun hp => ?_
        exact hlen ((plain_append hl rest).1 hp).1
    · -- the last line has no newline to lose
      obtain ⟨hs, hhands, -, rfl⟩ := h
      have hfirst : (lines stream).head? = some stream := by
        rw [lines_tail hnl hne]
        rfl
      have hlen : (fetched stream).length ≤ stream.length := (fetched_initial stream).length_le
      refine iff_of_false (ne_lines_of_short hne h0 hfirst hlen hhands) fun hp => ?_
      exact hnl (List.mem_of_getLast? (hp.ended.resolve_left hne))

end loop

/-! ### The rounds of the shell -/

section rounds

variable {Dir P : Type*} [DecidableEq P] {m : Machine Dir P} {v : Version} {s s' : Process Dir P}

/-- `memset` and `fgets` stay inside `cmd_line`: 1023 bytes at most are read,
and a terminator stored. -/
theorem readLine_front {s s₁ : State} {stream rest : List UInt8}
    (h : readLine s stream = some (s₁, rest)) : s₁.cmdLine.front = s.cmdLine.front := by
  obtain ⟨⟨b, rest'⟩, hgets, heq⟩ := Option.map_eq_some_iff.1 h
  cases heq
  dsimp only [fgets] at hgets
  split_ifs at hgets
  cases hgets
  rfl

/-- Only at the end of the input there is nothing to fetch.  `fgets` returns a
null pointer then, and the loop goes on. -/
theorem eq_nil_of_readLine {s : State} {stream : List UInt8} (h : readLine s stream = none) :
    stream = [] := by
  by_contra hne
  have hgets := Option.map_eq_none_iff.1 h
  dsimp only [fgets] at hgets
  split_ifs at hgets with hline
  exact hline ⟨fetched_ne_nil hne, Nat.lt_of_le_of_lt (length_fetched stream) (by decide)⟩

/-- What is handed to the parser is a string: there is a zero behind it, or it
was stored there. -/
theorem strip_string {b b' : Block num} (h : strip b = some b') : ∃ cmd, b'.string 0 = some cmd := by
  obtain ⟨len, hlen, hstore⟩ := Option.bind_eq_some_iff.1 h
  change CString.strlen b.mem = some len at hlen
  unfold CString.strlen at hlen
  split_ifs at hlen with h0
  exact Block.exists_string (Block.zero_mem_store hstore h0)

section handed

variable {fork : Fork} {forks : List Fork} {s₁ s₂ : Process Dir P}

/-- A round without a line hands nothing on. -/
theorem handed_eof (hline : (s.print prompt).getLine = none) (hround : v.round m fork s = some s₁) :
    v.handed m (fork :: forks) s = v.handed m forks s₁ := by
  simp only [Version.handed, hline, hround, Option.map_some, Option.getD_some]

/-- A round with a line hands on what is in `cmd_line`, and notes the input in
front of the command and behind it. -/
theorem handed_line (hline : (s.print prompt).getLine = some s₂)
    (hround : v.round m fork s = some s₁) :
    v.handed m (fork :: forks) s =
      ⟨s₂.command, s₂.kernel.world.input, s₁.kernel.world.input⟩ :: v.handed m forks s₁ := by
  simp only [Version.handed, hline, hround, Option.map_some, Option.getD_some]

end handed

/-- **The rounds hand on what the shell hands to its parser,** at the terminal,
with nothing in front of `cmd_line` that may be touched, where the rounds have
come to the end of the input. -/
theorem hands_handed {forks : List Fork} (h : AtPrompt s) (hfront : s.globals.cmdLine.front = [])
    (hs : v.rounds m forks s = some s') (hend : s'.kernel.world.input = []) :
    Hands v s.globals s.kernel.world.input (v.handed m forks s) := by
  induction forks generalizing s with
  | nil =>
    cases hs
    rw [hend]
    exact hands_nil.2 rfl
  | cons fork forks ih =>
    obtain ⟨s₁, hround, hrest⟩ := Option.bind_eq_some_iff.1 hs
    obtain ⟨hat, hwhat⟩ := v.round_keeps h hround
    cases hwhat with
    | eof hread hline hglobals hinput =>
      -- the input was at its end before, so the rounds that follow find nothing either
      have hempty := eq_nil_of_readLine hread
      have hlater := ih hat (by rw [hglobals]; exact hfront) hrest
      rw [hinput, hempty, hands_nil] at hlater
      rw [handed_eof hline hround, hlater, hempty]
      exact hands_nil.2 rfl
    | @line g rest file cmp hread hline hparse hcmp hcd =>
      obtain ⟨b, hstrip⟩ := v.exists_strip hparse
      obtain ⟨cmd, hcmd⟩ := strip_string hstrip
      have hg : g.cmdLine.front = [] := (readLine_front hread).trans hfront
      have hs₁ : s₁.globals.cmdLine.front = [] := v.parse_front hparse hg
      have hcommand : ((s.print prompt).taken g rest).command = cmd := by
        show ((strip g.cmdLine).bind _).getD [] = cmd
        rw [hstrip, Option.bind_some, hcmd]
        rfl
      rw [handed_line hline hround, hcommand]
      exact .goes hread hstrip hcmd ⟨file, hparse, hcmp, hs₁.trans hg.symm⟩ hcd (ih hat hs₁ hrest)

/-- **Where no program reads, no command touches the input,** whatever is typed
and whatever comes of `fork`: at a terminal `exit(1)` has nothing to move
back. -/
theorem untouched_handed (hm : m.Deaf) (forks : List Fork) (s : Process Dir P) :
    Untouched (v.handed m forks s) := by
  have hnone : Untouched [] := fun _ h => absurd h List.not_mem_nil
  induction forks generalizing s with
  | nil => exact hnone
  | cons fork forks ih =>
    have hlater : Untouched (((v.round m fork s).map (v.handed m forks)).getD []) := by
      cases v.round m fork s with
      | none => exact hnone
      | some s₁ => exact ih s₁
    cases hline : (s.print prompt).getLine with
    | none => simpa only [Version.handed, hline] using hlater
    | some s₁ =>
      simp only [Version.handed, hline]
      refine List.forall_mem_cons.2 ⟨?_, hlater⟩
      have hround : v.round m fork s = v.perform m fork s₁ := by
        simp only [Version.round, hline]
      show ((v.round m fork s).getD s₁).kernel.world.input = s₁.kernel.world.input
      rw [hround]
      cases hperform : v.perform m fork s₁ with
      | none => rfl
      | some s₂ => exact v.perform_input hm hperform

end rounds

/-- **Exactly when the commands are the lines.**  For both versions, every
state and every stream without a zero byte: if no command touches the input,
the commands that the shell hands to its parser are the lines of the stream, in
order and complete, if and only if the stream is empty or ends in a newline, no
line has more than 1022 bytes, and the parser gets through each line that
others follow.

The same is true of the rounds of the shell at its terminal, on every machine
and whatever comes of `fork`: if they have come to the end of the input, and no
command has touched it, they have handed the lines to the parser just if the
input was of that kind. -/
theorem hands_lines_iff {Dir P : Type*} [DecidableEq P] (v : Version) :
    (∀ (s : State) (stream : List UInt8), 0 ∉ stream →
      (∃ hs, Hands v s stream hs ∧ Untouched hs) ∧
      ∀ hs, Hands v s stream hs → Untouched hs →
        (hs.map Handed.cmd = lines stream ↔ Plain v stream)) ∧
    ∀ (m : Machine Dir P) (forks : List Fork) (s s' : Process Dir P), AtPrompt s →
      s.globals.cmdLine.front = [] → 0 ∉ s.kernel.world.input →
      v.rounds m forks s = some s' → s'.kernel.world.input = [] → Untouched (v.handed m forks s) →
        ((v.handed m forks s).map Handed.cmd = lines s.kernel.world.input ↔
          Plain v s.kernel.world.input) := by
  refine ⟨fun s stream h0 => ⟨?_, fun hs h hleft => commands_iff h0 ⟨hs, h, hleft, rfl⟩⟩, ?_⟩
  · obtain ⟨cmds, hs, h, hleft, -⟩ := exists_commands (v := v) (s := s) h0
    exact ⟨hs, h, hleft⟩
  · intro m forks s s' h hfront h0 hs hend hleft
    exact commands_iff h0 ⟨_, hands_handed h hfront hs hend, hleft, rfl⟩

/-- A shell at its first prompt, with nothing in front of `cmd_line`. -/
def lone (input : List UInt8) : Process Unit (List UInt8) :=
  { fresh input with
    globals := { stale with cmdLine := ⟨[], stale.cmdLine.mem, stale.cmdLine.length_mem⟩ } }

/-- The programs of that machine read nothing. -/
theorem deaf_echoing : echoing.Deaf := by
  intro files cwd argv program h
  cases h
  exact fun _ => trivial

/-- `ls` and `pwd`, if they touch nothing; and `e a>f` and `e b>>f` on a
machine whose programs only echo. -/
theorem hands_lines_iff_ls :
    (∃ hs, Hands .v1017 stale [108, 115, 10, 112, 119, 100, 10] hs ∧
      hs.map Handed.cmd = [[108, 115], [112, 119, 100]]) ∧
    (Version.v1017.handed echoing twoChildren (lone echoTwice)).map Handed.cmd =
      [[101, 32, 97, 62, 102], [101, 32, 98, 62, 62, 102]] := by
  obtain ⟨hstreams, hrounds⟩ := @hands_lines_iff Unit (List UInt8) _ .v1017
  constructor
  · obtain ⟨⟨hs, hhands, hleft⟩, hiff⟩ :=
      hstreams stale [108, 115, 10, 112, 119, 100, 10] (by decide)
    exact ⟨hs, hhands, (hiff hs hhands hleft).2 ⟨.inr rfl, by decide, by decide⟩⟩
  · obtain ⟨w, hscript, -, hend⟩ := script_echoTwice
    have hat : AtPrompt (lone echoTwice) := atPrompt_fresh echoTwice
    obtain ⟨s', hs, -, -, hscene⟩ := run_script hscript hat rfl
    rw [← rounds_v1017] at hs
    subst hscene
    exact (hrounds echoing twoChildren (lone echoTwice) s' hat rfl (by decide) hs hend
      (untouched_handed deaf_echoing _ _)).2 ⟨.inr rfl, by decide, by decide⟩

/-- **A last line without a newline loses a byte:** of `ls` the parser is
handed `l`, whatever that does to an input that has come to its end. -/
theorem last_line_cut : (∃ hs, Hands .v1017 stale [108, 115] hs ∧ Untouched hs) ∧
    lines [108, 115] = [[108, 115]] ∧
    ∀ hs, Hands .v1017 stale [108, 115] hs →
      (hs.map Handed.cmd).head? = some [108] ∧ hs.map Handed.cmd ≠ lines [108, 115] := by
  have h0 : (0 : UInt8) ∉ [108, 115] := by decide
  refine ⟨?_, by decide, fun hs h => ?_⟩
  · obtain ⟨cmds, hs, h, hleft, -⟩ := exists_commands (v := .v1017) (s := stale) h0
    exact ⟨hs, h, hleft⟩
  · exact ⟨head_of_hands (by decide) h0 h,
      ne_lines_of_short (l := [108, 115]) (by decide) h0 (by decide) le_rfl h⟩

end Shell
end OSNetWorkCode
