/-
# The parser inverts the syntax of command lines

A command line is a list of words with spaces between and around them and,
perhaps, an operator and a file name behind it (`CommandLine`);
`CommandLine.bytes` writes it out.  Reading and parsing what was written gives
back the words in `g_argv`, the file name under `sep` and the operator in
`redir_status`, whatever `cmd_line`, `g_argv`, `redir_status` and the pointer
of `strtok` were before (`parse_inverts`).

`CheckRedir` cuts the line at the operator, since a file name holds none
(`checkRedir_eq`); `strtok` then stops at the cut and leaves the file name
alone (`split_eq`).
-/

import OSNetWorkCode.Shell.Redirection

namespace OSNetWorkCode
namespace Shell

/-! ### Command lines -/

/-- A file name: any text that holds no operator and fits on a line. -/
structure FileName where
  bytes : List UInt8
  clean : ∀ c ∈ bytes, c ≠ lt ∧ c ≠ gt ∧ c ≠ 0 ∧ c ≠ newline

/-- A command line: the first word with the number of spaces in front of it,
the other words with the number of spaces beyond one in front of each, the
spaces behind, and the redirection. -/
structure CommandLine where
  before : ℕ
  first : Word
  more : List (ℕ × Word)
  after : ℕ
  redir : Option (Op × FileName)

namespace CommandLine

/-- The line up to the operator. -/
def command (c : CommandLine) : List UInt8 :=
  spaces c.before ++ (c.first.bytes ++ (pieces c.more ++ spaces c.after))

/-- The line, without its newline. -/
def bytes (c : CommandLine) : List UInt8 :=
  c.command ++ match c.redir with
    | none => []
    | some (op, file) => op.bytes ++ file.bytes

/-- The words that `g_argv` is to hold. -/
def argv (c : CommandLine) : List (List UInt8) := argvOf c.first (c.more.map Prod.snd)

/-- What `redir_status` is to be. -/
def status (c : CommandLine) : Redir :=
  match c.redir with
  | none => .none
  | some (op, _) => op.redir

/-- A command holds spaces and what words are made of, so none of the bytes
that the parser looks for but the spaces. -/
theorem mem_command {c : CommandLine} {x : UInt8} (h : x ∈ c.command) : x = sep ∨ wordByte x := by
  have hpieces : ∀ ws : List (ℕ × Word), x ∈ pieces ws → x = sep ∨ wordByte x := by
    intro ws hx
    obtain ⟨⟨k, w⟩, -, hx⟩ := List.mem_flatMap.1 hx
    rcases List.mem_append.1 hx with hx | hx
    · exact .inl (mem_spaces hx)
    · exact .inr (w.clean x hx)
  simp only [command, List.mem_append] at h
  rcases h with h | h | h | h
  · exact .inl (mem_spaces h)
  · exact .inr (c.first.clean x h)
  · exact hpieces _ h
  · exact .inl (mem_spaces h)

/-- It holds neither an operator nor the end of a string or of a line. -/
theorem ne_of_mem_command {c : CommandLine} {x : UInt8} (h : x ∈ c.command) :
    x ≠ lt ∧ x ≠ gt ∧ x ≠ 0 ∧ x ≠ newline := by
  rcases mem_command h with rfl | ⟨-, hlt, hgt, hzero, hnl⟩
  · decide
  · exact ⟨hlt, hgt, hzero, hnl⟩

/-- A command has a last byte: its first word is not empty. -/
theorem exists_last (c : CommandLine) : ∃ pre x, c.command = pre ++ [x] := by
  obtain ⟨w₀, w, hw⟩ := List.exists_cons_of_ne_nil c.first.ne_nil
  have hne : c.command ≠ [] := by
    simp [command, hw]
  exact ⟨c.command.dropLast, c.command.getLast hne, (List.dropLast_concat_getLast hne).symm⟩

/-- The line is one line of text, the file name included.  So `fgets` reads it
whole, and `strlen` finds its end. -/
theorem ne_of_mem_bytes {c : CommandLine} {x : UInt8} (h : x ∈ c.bytes) : x ≠ 0 ∧ x ≠ newline := by
  rcases List.mem_append.1 h with h | h
  · exact (ne_of_mem_command h).2.2
  · rcases hr : c.redir with _ | ⟨op, file⟩
    · rw [hr] at h
      cases h
    · rw [hr] at h
      rcases List.mem_append.1 h with h | h
      · have hop : x = lt ∨ x = gt := by
          cases op <;> simp [Op.bytes] at h <;> simp [h]
        rcases hop with rfl | rfl <;> decide
      · exact (file.clean x h).2.2

end CommandLine

/-! ### `CheckRedir` -/

section checkRedir

variable {n : ℕ} {b : Block n} {post : List UInt8} {c : CommandLine}

/-- Any operator may stand behind a command, as no command ends in a `'>'` and
none is empty. -/
theorem Op.behind_command (op : Op) (c : CommandLine) : op.Behind c.command := by
  intro _
  obtain ⟨init, x, hlast⟩ := c.exists_last
  have hmem : x ∈ c.command := by
    rw [hlast]
    exact List.mem_append_right _ (List.mem_singleton_self x)
  exact ⟨init, x, hlast, (CommandLine.ne_of_mem_command hmem).2.1⟩

/-- Without a redirection the line stays as it is, and all of it is the
command. -/
theorem checkRedir_none (hredir : c.redir = none) (hmem : b.mem = c.bytes ++ 0 :: post) :
    checkRedir b = some (b, .none, none) ∧ b.mem = c.command ++ 0 :: post := by
  have hbytes : c.bytes = c.command := by
    rw [CommandLine.bytes, hredir]
    exact List.append_nil _
  rw [hbytes] at hmem
  refine ⟨checkRedir_clean hmem (fun h => ?_) (fun x hx => ?_), hmem⟩
  · exact (CommandLine.ne_of_mem_command h).2.2.1 rfl
  · obtain ⟨hlt, hgt, -⟩ := CommandLine.ne_of_mem_command hx
    exact not_or.2 ⟨hlt, hgt⟩

/-- The redirection is cut off where the operator begins; the pointer is behind
the operator, and the file name stays where it is. -/
theorem checkRedir_some {op : Op} {file : FileName} (hredir : c.redir = some (op, file))
    (hmem : b.mem = c.bytes ++ 0 :: post) :
    ∃ b' : Block n, checkRedir b =
        some (b', op.redir, some (c.command.length + op.bytes.length)) ∧ b'.front = b.front ∧
      b'.mem = c.command ++ (op.cut ++ (file.bytes ++ 0 :: post)) := by
  have hbytes : c.bytes = c.command ++ (op.bytes ++ file.bytes) := by
    rw [CommandLine.bytes, hredir]
  have hcut : b.mem = c.command ++ (op.bytes ++ (file.bytes ++ 0 :: post)) := by
    rw [hmem, hbytes, List.append_assoc, List.append_assoc]
  have h0 : 0 ∉ c.command ++ (op.bytes ++ file.bytes) := by
    rw [← hbytes]
    exact fun h => (CommandLine.ne_of_mem_bytes h).1 rfl
  have hclean : ∀ x ∈ file.bytes, ¬ operator x := fun x hx =>
    not_or.2 ⟨(file.clean x hx).1, (file.clean x hx).2.1⟩
  exact checkRedir_op op hcut h0 hclean (op.behind_command c)

/-- A cut is a terminator, and as long as the operator.  This is why the file
name stays at its place. -/
theorem Op.cut_eq (op : Op) : ∃ more, op.cut = 0 :: more ∧ op.bytes.length = more.length + 1 := by
  cases op with
  | input => exact ⟨[], rfl, rfl⟩
  | output => exact ⟨[], rfl, rfl⟩
  | append => exact ⟨[gt], rfl, rfl⟩

/-- **`CheckRedir` finds the redirection and cuts it off.**  What is left is
the command, and the file name stays where it is as long as nothing behind the
cut is touched. -/
theorem checkRedir_eq (hmem : b.mem = c.bytes ++ 0 :: post) :
    ∃ (b' : Block n) (file : Option ℕ) (rest : List UInt8),
      checkRedir b = some (b', c.status, file) ∧ b'.front = b.front ∧
      b'.mem = c.command ++ 0 :: rest ∧
      ∀ b₁ : Block n, (∃ mid, mid.length = c.command.length ∧ b₁.mem = mid ++ 0 :: rest) →
        file.map b₁.string = c.redir.map fun r => some r.2.bytes := by
  rcases hredir : c.redir with _ | ⟨op, file⟩
  · have hstatus : c.status = .none := by rw [CommandLine.status, hredir]
    obtain ⟨hcheck, hmem'⟩ := checkRedir_none hredir hmem
    exact ⟨b, none, post, by rw [hcheck, hstatus], rfl, hmem', fun b₁ _ => rfl⟩
  · have hstatus : c.status = op.redir := by rw [CommandLine.status, hredir]
    obtain ⟨b', hcheck, hfront, hmem'⟩ := checkRedir_some hredir hmem
    obtain ⟨more, hcut, hmore⟩ := op.cut_eq
    refine ⟨b', some (c.command.length + op.bytes.length), more ++ (file.bytes ++ 0 :: post),
      by rw [hcheck, hstatus], hfront, by rw [hmem', hcut]; rfl, ?_⟩
    rintro b₁ ⟨mid, hmid, hb₁⟩
    have hfile : b₁.mem = (mid ++ 0 :: more) ++ (file.bytes ++ 0 :: post) := by
      rw [hb₁]
      simp
    have hat : c.command.length + op.bytes.length = (mid ++ 0 :: more).length := by
      rw [List.length_append, hmid, hmore, List.length_cons]
    have hnul : 0 ∉ file.bytes := fun h => (file.clean 0 h).2.2.1 rfl
    exact congrArg some (Block.string_eq hfile hat hnul)

end checkRedir

/-! ### Reading and parsing a line -/

section parse

variable {c : CommandLine}

/-- The first line of a stream that begins with a text of one line is that
text, with its newline. -/
theorem firstLine_append {w : List UInt8} (hw : newline ∉ w) (rest : List UInt8) :
    firstLine (w ++ newline :: rest) = w ++ [newline] := by
  have hpos : ∀ x ∈ w, decide (x ≠ newline) = true := by
    intro x hx
    rw [decide_eq_true_iff]
    rintro rfl
    exact hw hx
  rw [firstLine, List.takeWhile_append_of_pos hpos, List.dropWhile_append_of_pos hpos]
  simp

/-- What `fgets` stores, where it reads anything: the bytes and a terminator,
over what was there. -/
theorem fgets_eq {n : ℕ} {b : Block n} {stream bytes : List UInt8}
    (hline : (firstLine stream).take (n - 1) = bytes) (h : bytes ≠ [] ∧ bytes.length < n) :
    ∃ b', fgets b stream = some (b', stream.drop bytes.length) ∧ b'.front = b.front ∧
      b'.mem = CString.blit (bytes ++ [0]) b.mem := by
  subst hline
  exact ⟨_, dif_pos h, rfl, rfl⟩

/-- The last byte of a string that is not empty is overwritten, so that two
terminators follow. -/
theorem strip_eq {b : Block num} {init post : List UInt8} {x : UInt8}
    (hmem : b.mem = init ++ x :: 0 :: post) (h0 : 0 ∉ init ++ [x]) :
    ∃ b', strip b = some b' ∧ b'.front = b.front ∧ b'.mem = init ++ 0 :: 0 :: post := by
  have hstring : b.mem = (init ++ [x]) ++ 0 :: post := by
    rw [hmem, List.append_assoc]
    rfl
  obtain ⟨b', hstore, hfront, hmem'⟩ := Block.store_eq hmem rfl 0
  refine ⟨b', ?_, hfront, hmem'⟩
  have hlast : ((init ++ [x]).length : ℤ) - 1 = (init.length : ℕ) := by
    rw [List.length_append, List.length_singleton]
    omega
  show (b.strlen 0).bind _ = _
  rw [strlen_string hstring h0, Option.bind_some, hlast]
  exact hstore

/-- **What `fgets` puts into `cmd_line`** stands there without its last byte in
the end.  For a whole line that byte is the newline; `Session` is about what
else it may be. -/
theorem readLine_cut {stream init : List UInt8} {x : UInt8}
    (hline : (firstLine stream).take (num - 1) = init ++ [x]) (h0 : 0 ∉ init ++ [x]) (s : State) :
    ∃ (s' : State) (b : Block num) (post : List UInt8),
      readLine s stream = some (s', stream.drop (init ++ [x]).length) ∧
      strip s'.cmdLine = some b ∧ s'.cmdLine.front = s.cmdLine.front ∧
      b.front = s.cmdLine.front ∧ b.mem = init ++ 0 :: post := by
  have hfits : init ++ [x] ≠ [] ∧ (init ++ [x]).length < num := by
    refine ⟨by simp, ?_⟩
    rw [← hline, List.length_take]
    exact Nat.lt_of_le_of_lt (Nat.min_le_left _ _) (by decide)
  let cleared : Block num := ⟨s.cmdLine.front, List.replicate num 0, List.length_replicate⟩
  obtain ⟨b₁, hgets, hfront₁, hmem₁⟩ := fgets_eq (b := cleared) hline hfits
  obtain ⟨post, hmem⟩ : ∃ post, b₁.mem = init ++ x :: 0 :: post := by
    refine ⟨cleared.mem.drop (init ++ [x] ++ [0]).length, ?_⟩
    rw [hmem₁, CString.blit]
    simp
  obtain ⟨b, hstrip, hfront, hb⟩ := strip_eq hmem h0
  refine ⟨{ s with cmdLine := b₁ }, b, 0 :: post, ?_, hstrip, hfront₁, hfront.trans hfront₁, hb⟩
  show (fgets cleared _).map _ = _
  rw [hgets]
  rfl

/-- What `fgets` stores of a line that fits is the line, newline included. -/
theorem take_firstLine {w : List UInt8} (hw : newline ∉ w) (hlen : w.length ≤ 1022)
    (rest : List UInt8) : (firstLine (w ++ newline :: rest)).take (num - 1) = w ++ [newline] := by
  rw [firstLine_append hw, List.take_of_length_le]
  rw [List.length_append, List.length_singleton]
  exact Nat.succ_le_succ hlen

/-- What is left of the stream then is what follows the line. -/
theorem drop_line (w rest : List UInt8) :
    (w ++ newline :: rest).drop (w ++ [newline]).length = rest := by
  rw [show w ++ newline :: rest = (w ++ [newline]) ++ rest by simp, List.drop_left]

/-- **A line of the stream is read whole**, and its newline overwritten.  What
lay in `cmd_line` before is behind the terminator, if anywhere. -/
theorem readLine_eq (hlen : c.bytes.length ≤ 1022) (s : State) (rest : List UInt8) :
    ∃ (s' : State) (b : Block num) (post : List UInt8),
      readLine s (c.bytes ++ newline :: rest) = some (s', rest) ∧
      strip s'.cmdLine = some b ∧ b.front = s.cmdLine.front ∧ b.mem = c.bytes ++ 0 :: post := by
  have hnl : newline ∉ c.bytes := fun h => (CommandLine.ne_of_mem_bytes h).2 rfl
  have hnul : 0 ∉ c.bytes ++ [newline] := by
    intro h
    rcases List.mem_append.1 h with h | h
    · exact (CommandLine.ne_of_mem_bytes h).1 rfl
    · cases List.mem_singleton.1 h
  obtain ⟨s', b, post, hread, hstrip, -, hfront, hmem⟩ :=
    readLine_cut (take_firstLine hnl hlen rest) hnul s
  rw [drop_line] at hread
  exact ⟨s', b, post, hread, hstrip, hfront, hmem⟩

/-- **The parser inverts the syntax of command lines.**  Let a line be written
out that has at most 1022 bytes and whose words leave room for the null pointer
in `g_argv`.  Whatever the state was, reading and parsing the line touches no
memory but `cmd_line` and `g_argv`; then the entries of `g_argv` point to the
words, with `--color=auto` behind a first word `ls`, and a null pointer
follows; `sep` is null where there was no operator and points to the file name
otherwise; and `redir_status` is the operator's. -/
theorem parse_inverts (c : CommandLine) (hlen : c.bytes.length ≤ 1022)
    (hwords : c.more.length + 1 ≤ if c.first.bytes = ls then 30 else 31) (s : State)
    (rest : List UInt8) :
    ∃ s₁ s₂ file, readLine s (c.bytes ++ newline :: rest) = some (s₁, rest) ∧
      parse s₁ = some (s₂, file) ∧ s₂.cmdLine.front = s.cmdLine.front ∧
      (∃ ptrs, s₂.argv.entries.take (c.argv.length + 1) = ptrs ++ [.null] ∧
        ptrs.map s₂.string = c.argv.map some) ∧
      (file.map s₂.cmdLine.string = c.redir.map fun r => some r.2.bytes) ∧
      s₂.redirStatus = c.status := by
  have hargv : c.argv.length < size := by
    have hsize : size = 32 := rfl
    rw [CommandLine.argv, argvOf]
    split_ifs at hwords ⊢
    all_goals
      simp only [List.length_cons, List.length_map]
      omega
  obtain ⟨s₁, b, post, hread, hstrip, hfront, hmem⟩ := readLine_eq hlen s rest
  obtain ⟨b', file, more, hcheck, hfront', hmem', hfile⟩ := checkRedir_eq hmem
  rw [CommandLine.command, ← gaps_tokens] at hmem'
  rw [CommandLine.argv, ← argvOfTokens_tokens] at hargv ⊢
  obtain ⟨s₂, mid, hsplit, hredir, hfront₂, hmem₂, hmid, hptrs⟩ :=
    split_eq (s := { s₁ with cmdLine := b', redirStatus := c.status }) c.first.token
      (tokens c.more) (fun p hp => token_of_mem_tokens hp) hmem' hargv
  rw [gaps_tokens] at hmid
  refine ⟨s₁, s₂, file, hread, ?_, ?_, hptrs, hfile _ ⟨mid, hmid, hmem₂⟩, hredir⟩
  · show (strip s₁.cmdLine).bind _ = _
    rw [hstrip, Option.bind_some]
    show (checkRedir b).bind _ = _
    rw [hcheck, Option.bind_some]
    show (split _).bind _ = _
    rw [hsplit]
    rfl
  · rw [hfront₂, hfront', hfront]

end parse

/-- A space, `ls`, two spaces, `-a`, and `>> log` behind. -/
def lsAppend : CommandLine where
  before := 1
  first := ⟨[108, 115], nofun, by simp; decide⟩
  more := [(1, ⟨[45, 97], nofun, by simp; decide⟩)]
  after := 0
  redir := some (.append, ⟨[32, 108, 111, 103], by simp; decide⟩)

/-- What an earlier line may have left: operators, pointers into the line, and
no end. -/
def stale : State where
  cmdLine := ⟨[62], List.replicate num 62, List.length_replicate⟩
  argv := ⟨List.replicate size (.cmd 1000), List.length_replicate⟩
  redirStatus := .input
  save := 5000

/-- `ls`, `--color=auto`, `-a`; the file name keeps its space, since nothing
skips spaces behind an operator. -/
theorem parse_inverts_ls : ∃ s₁ s₂ file,
    readLine stale [32, 108, 115, 32, 32, 45, 97, 62, 62, 32, 108, 111, 103, 10] = some (s₁, []) ∧
      parse s₁ = some (s₂, file) ∧ s₂.cmdLine.front = [62] ∧
      (∃ ptrs, s₂.argv.entries.take 4 = ptrs ++ [.null] ∧
        ptrs.map s₂.string = [some [108, 115], some colorAuto, some [45, 97]]) ∧
      file.map s₂.cmdLine.string = some (some [32, 108, 111, 103]) ∧ s₂.redirStatus = .append :=
  parse_inverts lsAppend (by decide) (by decide) stale []

end Shell
end OSNetWorkCode
