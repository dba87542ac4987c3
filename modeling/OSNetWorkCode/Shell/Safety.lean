/-
# On which lines the parser is safe

From the overwritten newline to the last comparison the code checks nothing:
the line may be empty, `strtok` may find no word for `strcmp`, and more words
may be found than `g_argv` has room for.  `Safe` says that none of this
happens, and that nothing in front of `cmd_line` is changed.

What decides is the command that is left of the line (`command`): the text
before its first zero byte, without the last byte, up to the last redirection.
Its words are what `strtok` finds (`words`, `exists_gaps`), so `split` goes
through if and only if there is a word and `g_argv` has room for all of them
and the null pointer (`split_iff`).  All other dangers are among the lines
without a word: a line that begins with a zero byte, or with the redirection.
-/

import OSNetWorkCode.Shell.Parse

namespace OSNetWorkCode
namespace Shell

open CString

/-! ### Words -/

/-- The words of a text: what lies between spaces. -/
def words (s : List UInt8) : List (List UInt8) := (s.splitOn sep).filter (· ≠ [])

/-- A space in front adds no word. -/
theorem words_space (s : List UInt8) : words (sep :: s) = words s := by
  rw [words, List.splitOn_cons_eq_if_modifyHead, if_pos (beq_self_eq_true sep),
    List.filter_cons_of_neg (by simp)]
  rfl

/-- Nor do more of them. -/
theorem words_spaces (k : ℕ) (s : List UInt8) : words (spaces k ++ s) = words s := by
  induction k with
  | zero => rfl
  | succ k ih =>
    rw [← ih, ← words_space]
    rfl

/-- There is no word in spaces alone. -/
theorem words_blank (k : ℕ) : words (spaces k) = [] := by
  have h := words_spaces k []
  rwa [List.append_nil] at h

section token

variable {w : List UInt8} (hw : Token w)

include hw

/-- A word has no space in it. -/
theorem Token.sep_notMem : sep ∉ w := fun h => (hw.clean sep h).1 rfl

/-- A word alone is one word. -/
theorem words_token : words w = [w] := by
  rw [words, List.splitOn_eq_singleton hw.sep_notMem,
    List.filter_cons_of_pos (by simpa using hw.ne_nil), List.filter_nil]

/-- A word ends at the next space. -/
theorem words_token_space (s : List UInt8) : words (w ++ sep :: s) = w :: words s := by
  rw [words, List.splitOn_append_cons_self_of_not_mem hw.sep_notMem,
    List.filter_cons_of_pos (by simpa using hw.ne_nil)]
  rfl

/-- The words of tokens with spaces between them are the tokens, by induction
on those behind the first. -/
theorem words_gaps (ws : List (ℕ × List UInt8)) (hws : ∀ p ∈ ws, Token p.2) (t : ℕ) :
    words (w ++ (gaps ws ++ spaces t)) = w :: ws.map Prod.snd := by
  induction ws generalizing w with
  | nil =>
    rw [show gaps [] = [] from rfl, List.nil_append, List.map_nil]
    rcases t with _ | t
    · rw [show spaces 0 = [] from rfl, List.append_nil, words_token hw]
    · rw [show spaces (t + 1) = sep :: spaces t from rfl, words_token_space hw, words_blank]
  | cons p ws ih =>
    obtain ⟨k, v⟩ := p
    have hv : Token v := hws (k, v) List.mem_cons_self
    have hrest := ih hv fun q hq => hws q (List.mem_cons_of_mem _ hq)
    rw [gaps_cons, List.cons_append, words_token_space hw, List.append_assoc, List.append_assoc,
      words_spaces, hrest, List.map_cons]

end token

/-- **Every text is tokens with spaces between and around them,** or spaces
only.  So what is proved of lines that were written out holds of any line; the
induction is on the text. -/
theorem exists_gaps : ∀ s : List UInt8, 0 ∉ s → (∃ t, s = spaces t) ∨
    ∃ k first ws t, s = spaces k ++ (first ++ (gaps ws ++ spaces t)) ∧ Token first ∧
      ∀ p ∈ ws, Token p.2
  | [], _ => .inl ⟨0, rfl⟩
  | c :: s, h0 => by
    have hc : c ≠ 0 := fun h => h0 (by rw [h]; exact List.mem_cons_self)
    have ih := exists_gaps s fun h => h0 (List.mem_cons_of_mem c h)
    by_cases hsep : c = sep
    · subst hsep
      rcases ih with ⟨t, rfl⟩ | ⟨k, first, ws, t, rfl, hfirst, hws⟩
      · exact .inl ⟨t + 1, rfl⟩
      · exact .inr ⟨k + 1, first, ws, t, rfl, hfirst, hws⟩
    · have hone : Token [c] := by
        refine ⟨nofun, fun x hx => ?_⟩
        rw [List.mem_singleton.1 hx]
        exact ⟨hsep, hc⟩
      rcases ih with ⟨t, rfl⟩ | ⟨k, first, ws, t, rfl, hfirst, hws⟩
      · exact .inr ⟨0, [c], [], t, rfl, hone, nofun⟩
      · rcases k with _ | k
        · -- the byte belongs to the first word
          refine .inr ⟨0, c :: first, ws, t, rfl, ⟨nofun, fun x hx => ?_⟩, hws⟩
          rcases List.mem_cons.1 hx with rfl | hx
          · exact ⟨hsep, hc⟩
          · exact hfirst.clean x hx
        · refine .inr ⟨0, [c], (k, first) :: ws, t, ?_, hone, fun p hp => ?_⟩
          · rw [gaps_cons, show spaces (k + 1) = sep :: spaces k from rfl]
            simp [spaces]
          · rcases List.mem_cons.1 hp with rfl | hp
            · exact hfirst
            · exact hws p hp

/-! ### `split` leaves what lies in front -/

/-- A store at a place of the memory leaves what lies in front of it.  The
place in front has a negative index. -/
theorem store_front {n : ℕ} {b b' : Block n} {i : ℕ} {c : UInt8}
    (h : b.store (i : ℤ) c = some b') : b'.front = b.front := by
  change (if i < n then some _ else none) = some b' at h
  split_ifs at h
  obtain rfl := Option.some.inj h
  rfl

/-- `strtok` stores behind a word only, which is a place of the memory; it
changes nothing in front of it. -/
theorem strtok_front {n : ℕ} {start : Option ℕ} {save : ℕ} {b : Block n} {r}
    (h : strtok start save b = some r) : r.2.2.front = b.front := by
  simp only [strtok, Option.bind_eq_bind, Option.bind_eq_some_iff] at h
  obtain ⟨skip, -, c, -, h⟩ := h
  split_ifs at h
  · obtain rfl := Option.some.inj h
    rfl
  · simp only [Option.bind_eq_some_iff] at h
    obtain ⟨len, -, c', -, h⟩ := h
    split_ifs at h
    · obtain rfl := Option.some.inj h
      rfl
    · rw [Option.bind_eq_some_iff] at h
      obtain ⟨b', hb', h⟩ := h
      obtain rfl := Option.some.inj h
      exact store_front hb'

/-- So does the call whose result is stored into `g_argv`. -/
theorem nextToken_front {start : Option ℕ} {idx : ℕ} {s : State} {r}
    (h : nextToken start idx s = some r) : r.2.cmdLine.front = s.cmdLine.front := by
  simp only [nextToken, Option.bind_eq_bind, Option.bind_eq_some_iff] at h
  obtain ⟨⟨token, save, b⟩, htok, argv, -, h⟩ := h
  obtain rfl := Option.some.inj h
  exact strtok_front htok

/-- And the loop over it, by induction on the entries that are left. -/
theorem fill_front : ∀ {left idx : ℕ} {s s' : State}, fill left idx s = some s' →
    s'.cmdLine.front = s.cmdLine.front
  | 0, _, _, _, h => by cases h
  | left + 1, idx, s, s', h => by
    simp only [fill, Option.bind_eq_bind, Option.bind_eq_some_iff] at h
    obtain ⟨⟨token, s₁⟩, hnext, h⟩ := h
    have hfront : s₁.cmdLine.front = s.cmdLine.front := nextToken_front hnext
    cases token with
    | none =>
      obtain rfl := Option.some.inj h
      exact hfront
    | some i => exact (fill_front h).trans hfront

/-- **Whatever is split, nothing in front of `cmd_line` is changed.**  Only
`CheckRedir` and the overwriting of the last byte can do that. -/
theorem split_front {s s' : State} (h : split s = some s') :
    s'.cmdLine.front = s.cmdLine.front := by
  simp only [split, Option.bind_eq_bind, Option.bind_eq_some_iff] at h
  obtain ⟨⟨token, s₁⟩, hnext, first, -, word, -, h⟩ := h
  have hfront : s₁.cmdLine.front = s.cmdLine.front := nextToken_front hnext
  split_ifs at h
  · rw [Option.bind_eq_some_iff] at h
    obtain ⟨argv, -, h⟩ := h
    exact (fill_front h).trans hfront
  · exact (fill_front h).trans hfront

/-! ### When `split` goes through -/

/-- `"cd"`. -/
def cd : List UInt8 := [99, 100]

/-- `strcmp(g_argv[0], "cd") == 0`. -/
def isCd (s : State) : Option Bool := do
  let p ← s.argv.entries[0]?
  let word ← s.string p
  some (word = cd)

/-- The first word is there to be compared with `cd`, and the comparison is one
of words. -/
theorem isCd_eq {s : State} {first : List UInt8} {rest : List (List UInt8)} {ptrs : List Ptr}
    {k : ℕ} (hargv : s.argv.entries.take k = ptrs ++ [.null])
    (hptrs : ptrs.map s.string = (argvOfTokens first rest).map some) :
    isCd s = some (decide (first = cd)) := by
  obtain ⟨more, hmore⟩ : ∃ more, argvOfTokens first rest = first :: more := by
    unfold argvOfTokens
    split_ifs <;> exact ⟨_, rfl⟩
  rw [hmore, List.map_cons] at hptrs
  obtain ⟨p, ptrs, rfl, hp, -⟩ := List.map_eq_cons_iff.1 hptrs
  have hentry : s.argv.entries[0]? = some p := by
    rw [← List.take_append_drop k s.argv.entries, hargv]
    rfl
  show (s.argv.entries[0]?).bind _ = _
  rw [hentry, Option.bind_some]
  show (s.string p).bind _ = _
  rw [hp]
  rfl

/-- There is a word, and `g_argv` has room for the words, for `--color=auto`
behind a first word `ls` and for the null pointer. -/
def Fits : List (List UInt8) → Prop
  | [] => False
  | first :: rest => rest.length + 1 ≤ if first = ls then 30 else 31

/-- Whether the words fit can be computed. -/
instance : ∀ ws, Decidable (Fits ws)
  | [] => inferInstanceAs (Decidable False)
  | first :: rest => inferInstanceAs (Decidable (rest.length + 1 ≤ if first = ls then 30 else 31))

/-- The words fit where `g_argv` has room for them and for a null pointer
behind them. -/
theorem fits_iff (first : List UInt8) (rest : List (List UInt8)) :
    Fits (first :: rest) ↔ (argvOfTokens first rest).length < size := by
  show rest.length + 1 ≤ (if first = ls then 30 else 31) ↔ _
  have hsize : size = 32 := rfl
  rw [argvOfTokens, hsize]
  split_ifs <;> simp only [List.length_cons] <;> omega

/-- **The loop runs over the end of `g_argv`** if as many words are left as
there are entries.  Each of them takes an entry, and no test of the index ends
the loop. -/
theorem fill_none (ws : List (ℕ × List UInt8)) (hws : ∀ p ∈ ws, Token p.2) {t left idx : ℕ}
    {s : State} {pre post : List UInt8}
    (hmem : s.cmdLine.mem = pre ++ ((gaps ws ++ spaces t).drop 1 ++ 0 :: post))
    (hsave : s.save = pre.length) (hleft : left ≤ ws.length) (hidx : idx + left = size) :
    fill left idx s = none := by
  induction left generalizing ws idx s pre with
  | zero => rfl
  | succ left ih =>
    obtain _ | ⟨⟨k, w⟩, ws⟩ := ws
    · exact absurd hleft (Nat.not_succ_le_zero left)
    · have hw : Token w := hws (k, w) List.mem_cons_self
      have hlt : idx < size := by omega
      rw [drop_gaps_cons, List.append_assoc (spaces k), List.append_assoc w] at hmem
      obtain ⟨b, cut, htok, -, hmem₁, -⟩ := strtok_token hw (gaps_append_spaces ws t) hmem
        (show none.getD s.save = pre.length from hsave)
      obtain ⟨s₁, hnext, hcmd, hsave₁, -⟩ := nextToken_eq htok hlt
      rw [← hcmd] at hmem₁
      show (nextToken none idx s).bind _ = _
      rw [hnext]
      exact ih ws (fun q hq => hws q (List.mem_cons_of_mem _ hq)) hmem₁ hsave₁
        (Nat.le_of_succ_le_succ hleft) (by omega)

section split

variable {s : State} {post : List UInt8}

/-- No word is found among spaces, and `g_argv[0]` is a null pointer.  The code
does not test it. -/
theorem nextToken_blank {k : ℕ} (hmem : s.cmdLine.mem = spaces k ++ 0 :: post) :
    ∃ s', nextToken (some 0) 0 s = some (none, s') := by
  have hwhole : s.cmdLine.mem = [] ++ (spaces k ++ 0 :: post) := hmem
  have hstart : (some 0).getD s.save = ([] : List UInt8).length := rfl
  have hzero : 0 < size := by decide
  obtain ⟨save, htok⟩ := strtok_end hwhole hstart
  obtain ⟨s', hnext, -⟩ := nextToken_eq htok hzero
  exact ⟨s', hnext⟩

/-- Without a word `strcmp` is called with a null pointer, in the shell itself
and not in a child. -/
theorem split_blank {k : ℕ} (hmem : s.cmdLine.mem = spaces k ++ 0 :: post) : split s = none := by
  obtain ⟨s₁, hnext⟩ := nextToken_blank hmem
  show (nextToken _ _ _).bind _ = _
  rw [hnext]
  rfl

/-- **More words than there is room for** take the loop over the end of
`g_argv`.  Behind a first word `ls` there is room for one less. -/
theorem split_none {first : List UInt8} (hfirst : Token first) (ws : List (ℕ × List UInt8))
    (hws : ∀ p ∈ ws, Token p.2) {k t : ℕ}
    (hmem : s.cmdLine.mem = spaces k ++ (first ++ (gaps ws ++ spaces t)) ++ 0 :: post)
    (hargv : size ≤ (argvOfTokens first (ws.map Prod.snd)).length) : split s = none := by
  have hone : 1 < size := by decide
  have hsize : size = 32 := rfl
  obtain ⟨s₁, cut, hnext, -, -, hmem₁, -, hsave₁, hword, -⟩ := nextToken_first hfirst ws hmem
  unfold split
  show (nextToken _ _ _).bind _ = _
  rw [hnext, Option.bind_some]
  show (s₁.cmdLine.string _).bind _ = _
  rw [hword, Option.bind_some]
  by_cases hls : first = ls
  · obtain ⟨argv, hstore, -⟩ := s₁.argv.store_eq hone .color
    rw [argvOfTokens, if_pos hls, List.length_cons, List.length_cons, List.length_map] at hargv
    rw [if_pos hls]
    show (s₁.argv.store 1 .color).bind _ = _
    rw [hstore]
    exact fill_none (s := { s₁ with argv := argv }) ws hws hmem₁ hsave₁ (by omega) rfl
  · rw [argvOfTokens, if_neg hls, List.length_cons, List.length_map] at hargv
    rw [if_neg hls]
    exact fill_none ws hws hmem₁ hsave₁ (by omega) rfl

/-- **`split` and the comparison behind it go through if and only if the words
fit.**  A text of spaces only has no word, and any other is written out as
tokens. -/
theorem split_iff {cmd : List UInt8} (hmem : s.cmdLine.mem = cmd ++ 0 :: post) (h0 : 0 ∉ cmd) :
    (∃ s' b, split s = some s' ∧ isCd s' = some b) ↔ Fits (words cmd) := by
  rcases exists_gaps cmd h0 with ⟨t, rfl⟩ | ⟨k, first, ws, t, rfl, hfirst, hws⟩
  · rw [split_blank hmem, words_blank]
    constructor
    · rintro ⟨s', _, h, -⟩
      cases h
    · exact False.elim
  · rw [words_spaces, words_gaps hfirst ws hws, fits_iff]
    constructor
    · rintro ⟨s', _, hs', -⟩
      by_contra hnot
      rw [split_none hfirst ws hws hmem (Nat.le_of_not_lt hnot)] at hs'
      cases hs'
    · intro hfits
      obtain ⟨s', mid, hs', -, -, -, -, ptrs, hargv, hptrs⟩ := split_eq hfirst ws hws hmem hfits
      exact ⟨s', _, hs', isCd_eq hargv hptrs⟩

end split

/-! ### What is left of a line -/

/-- Where the last operator is. -/
def lastOperator : List UInt8 → Option ℕ
  | [] => none
  | c :: s =>
    match lastOperator s with
    | some i => some (i + 1)
    | none => if operator c then some 0 else none

/-- A text up to its last redirection. -/
def upToRedir (s : List UInt8) : List UInt8 :=
  match lastOperator s with
  | none => s
  | some i => s.take (operatorStart s i)

/-- The command on a line: the text before its first zero byte, without the
last byte, up to the last redirection.  Nothing else of the line is split. -/
def command (line : List UInt8) : List UInt8 := upToRedir (text line).dropLast

/-- Where no operator is found there is none. -/
theorem lastOperator_none : ∀ {s : List UInt8}, lastOperator s = none → ∀ c ∈ s, ¬ operator c
  | [], _ => nofun
  | c :: s, h => by
    rw [lastOperator] at h
    split at h
    · cases h
    · rename_i hs
      split_ifs at h with hc
      intro x hx
      rcases List.mem_cons.1 hx with rfl | hx
      · exact hc
      · exact lastOperator_none hs x hx

/-- The one that is found is there, and none behind it.  The induction is on
the text, and what is found in the rest comes first. -/
theorem lastOperator_some : ∀ {s : List UInt8} {i : ℕ}, lastOperator s = some i →
    ∃ pre c file, s = pre ++ c :: file ∧ pre.length = i ∧ operator c ∧ ∀ x ∈ file, ¬ operator x
  | [], _, h => by cases h
  | c :: s, i, h => by
    rw [lastOperator] at h
    split at h
    · rename_i j hs
      obtain rfl := Option.some.inj h
      obtain ⟨pre, c', file, rfl, rfl, hc, hfile⟩ := lastOperator_some hs
      exact ⟨c :: pre, c', file, rfl, rfl, hc, hfile⟩
    · rename_i hs
      split_ifs at h with hc
      obtain rfl := Option.some.inj h
      exact ⟨[], c, s, rfl, rfl, hc, lastOperator_none hs⟩

/-! ### From the newline to the last comparison -/

/-- The parser and the comparison with `cd` go through and change nothing in
front of `cmd_line`: they store inside `cmd_line` and `g_argv` only and give
`strcmp` no null pointer. -/
def Safe (s : State) : Prop :=
  ∃ s' file b, parse s = some (s', file) ∧ isCd s' = some b ∧ s'.cmdLine.front = s.cmdLine.front

/-- What `fgets` puts into `cmd_line` in front of the terminator. -/
def fetched (stream : List UInt8) : List UInt8 := (firstLine stream).take (num - 1)

/-- Bytes and a terminator are a text and a terminator: what is read behind a
zero byte is not looked at. -/
theorem exists_text (line post : List UInt8) :
    ∃ more, line ++ 0 :: post = text line ++ 0 :: more := by
  have hcut := List.takeWhile_append_dropWhile (p := (· ≠ 0)) (l := line)
  cases hrest : line.dropWhile (· ≠ 0) with
  | nil =>
    rw [hrest, List.append_nil] at hcut
    exact ⟨post, by rw [text, hcut]⟩
  | cons c rest =>
    have hc : c = 0 := by
      have hhead := List.head?_dropWhile_not (· ≠ 0) line
      rw [hrest] at hhead
      simpa using hhead
    subst hc
    refine ⟨rest ++ 0 :: post, ?_⟩
    conv_lhs => rw [← hcut, hrest]
    rw [List.append_assoc]
    rfl

/-- A text has no terminator in it. -/
theorem zero_notMem_text (line : List UInt8) : 0 ∉ text line := fun h => by
  simpa using List.mem_takeWhile_imp h

/-- What lies in `cmd_line` after a line was read: the text that was fetched,
with its terminator. -/
theorem readLine_mem {s s₁ : State} {stream rest : List UInt8}
    (h : readLine s stream = some (s₁, rest)) :
    ∃ post, s₁.cmdLine.mem = text (fetched stream) ++ 0 :: post := by
  simp only [readLine, Option.map_eq_some_iff] at h
  obtain ⟨⟨b, rest'⟩, hgets, heq⟩ := h
  cases heq
  dsimp only [fgets] at hgets
  split_ifs at hgets with hline
  cases hgets
  obtain ⟨more, hmore⟩ := exists_text (fetched stream)
    ((List.replicate num 0).drop (fetched stream ++ [0]).length)
  refine ⟨more, ?_⟩
  rw [← hmore]
  show blit (fetched stream ++ [0]) _ = _
  rw [blit, List.append_assoc]
  rfl

section parse

variable {s : State} {post : List UInt8}

/-- The rest of the parser behind the overwritten byte: the redirection is
looked for first, and what is left is split. -/
theorem parse_of_strip {b : Block num} (hstrip : strip s.cmdLine = some b) :
    parse s = (checkRedir b).bind fun r =>
      (split { s with cmdLine := r.1, redirStatus := r.2.1 }).bind fun s' =>
        some (s', r.2.2) := by
  show (strip s.cmdLine).bind _ = _
  rw [hstrip]
  rfl

/-- A line that begins with a zero byte has the byte in front of `cmd_line`
overwritten, or looked for where there is none, and no word in any case. -/
theorem not_safe_empty (hmem : s.cmdLine.mem = 0 :: post) : ¬ Safe s := by
  have hlen : s.cmdLine.strlen 0 = some 0 := strlen_string (s := []) hmem List.not_mem_nil
  have hstrip : strip s.cmdLine = s.cmdLine.store ((0 : ℕ) - 1 : ℤ) 0 := by
    show (s.cmdLine.strlen 0).bind _ = _
    rw [hlen]
    rfl
  rintro ⟨s', file, _, hparse, -⟩
  cases hb : s.cmdLine.store ((0 : ℕ) - 1 : ℤ) 0 with
  | none =>
    have hnone : parse s = none := by
      show (strip s.cmdLine).bind _ = _
      rw [hstrip, hb]
      rfl
    rw [hnone] at hparse
    cases hparse
  | some b =>
    have hbmem : b.mem = [] ++ 0 :: post := by
      change (if 0 < s.cmdLine.front.length then some _ else none) = some b at hb
      split_ifs at hb
      obtain rfl := Option.some.inj hb
      exact hmem
    have hsplit : split { s with cmdLine := b, redirStatus := .none } = none :=
      split_blank (k := 0) hbmem
    have hclean : checkRedir b = some (b, .none, none) :=
      checkRedir_clean hbmem List.not_mem_nil fun _ h => absurd h List.not_mem_nil
    rw [parse_of_strip (hstrip.trans hb), hclean, Option.bind_some, hsplit] at hparse
    cases hparse

/-- Behind a redirection that is no danger, `split` decides: it goes through
just where the words of the command fit. -/
theorem safe_iff_of_checkRedir {b b' : Block num} {redir : Redir} {file : Option ℕ}
    {cmd : List UInt8} (hstrip : strip s.cmdLine = some b)
    (hcheck : checkRedir b = some (b', redir, file)) (hfront : b'.front = s.cmdLine.front)
    (hmem : b'.mem = cmd ++ 0 :: post) (h0 : 0 ∉ cmd) : Safe s ↔ Fits (words cmd) := by
  have hparse := parse_of_strip hstrip
  rw [hcheck, Option.bind_some] at hparse
  have hsplit := split_iff (s := { s with cmdLine := b', redirStatus := redir }) hmem h0
  rw [← hsplit, Safe, hparse]
  constructor
  · rintro ⟨s', file', cmp, h, hcd, -⟩
    obtain ⟨s₁, hs₁, h⟩ := Option.bind_eq_some_iff.1 h
    cases h
    exact ⟨s', cmp, hs₁, hcd⟩
  · rintro ⟨s₁, cmp, hs₁, hcd⟩
    refine ⟨s₁, file, cmp, ?_, hcd, (split_front hs₁).trans hfront⟩
    rw [hs₁]
    rfl

/-- **A line that begins with `'>'` is never safe:** the byte in front of
`cmd_line` is changed, or no word is left, or there is nothing to look at in
front of `cmd_line`. -/
theorem not_safe_first {b : Block num} {file : List UInt8} (hstrip : strip s.cmdLine = some b)
    (hfront : b.front = s.cmdLine.front) (hmem : b.mem = gt :: (file ++ 0 :: post))
    (h0 : 0 ∉ gt :: file) (hfile : ∀ x ∈ file, ¬ operator x) : ¬ Safe s := by
  have hparse := parse_of_strip hstrip
  have hfirst := checkRedir_first hmem h0 hfile
  rintro ⟨s', end', cmp, h, -, hsame⟩
  rw [hparse] at h
  obtain ⟨r, hcheck, h⟩ := Option.bind_eq_some_iff.1 h
  obtain ⟨s₁, hsplit, h⟩ := Option.bind_eq_some_iff.1 h
  cases h
  have hkept : s'.cmdLine.front = r.1.front := split_front hsplit
  cases hb : b.front with
  | nil =>
    rw [hb] at hfirst
    rw [hfirst] at hcheck
    cases hcheck
  | cons x rest =>
    rw [hb] at hfirst
    dsimp only at hfirst
    split_ifs at hfirst with hx
    · obtain ⟨b', hcheck', hfront', -⟩ := hfirst
      rw [hcheck'] at hcheck
      cases hcheck
      rw [hkept, ← hfront, hb, hfront', hx] at hsame
      exact absurd (List.cons.inj hsame).1 (by decide)
    · obtain ⟨b', hcheck', -, hmem'⟩ := hfirst
      rw [hcheck'] at hcheck
      cases hcheck
      rw [split_blank (k := 0) hmem'] at hsplit
      cases hsplit

/-- The parser on a line whose last byte was overwritten: safe or not as the
words of the command fit.  A `'>'` at the beginning is no exception, as there
is no word in front of it. -/
theorem safe_iff_of_strip {b : Block num} {init : List UInt8} (hstrip : strip s.cmdLine = some b)
    (hfront : b.front = s.cmdLine.front) (hmem : b.mem = init ++ 0 :: post) (h0 : 0 ∉ init) :
    Safe s ↔ Fits (words (upToRedir init)) := by
  unfold upToRedir
  cases hop : lastOperator init with
  | none =>
    exact safe_iff_of_checkRedir hstrip (checkRedir_clean hmem h0 (lastOperator_none hop)) hfront
      hmem h0
  | some i =>
    obtain ⟨before, c, file, rfl, rfl, hc, hfile⟩ := lastOperator_some hop
    have hcut : b.mem = before ++ c :: (file ++ 0 :: post) := by
      rw [hmem]
      simp
    by_cases hexc : c = gt ∧ before = []
    · obtain ⟨rfl, rfl⟩ := hexc
      have hnot : ¬ Fits (words (([] ++ gt :: file).take 0)) := id
      exact iff_of_false (not_safe_first hstrip hfront hcut h0 hfile) hnot
    · have hpre : c = gt → before ≠ [] := fun h1 h2 => hexc ⟨h1, h2⟩
      obtain ⟨b', hcheck, hfront', hmem'⟩ := checkRedir_last hcut h0 hc hfile hpre
      have hle := operatorStart_le (before ++ c :: file) before.length
      have hlt : operatorStart (before ++ c :: file) before.length <
          (before ++ c :: file).length := by
        rw [List.length_append, List.length_cons]
        omega
      rw [List.set_eq_take_append_cons_drop, if_pos hlt, List.append_assoc] at hmem'
      exact safe_iff_of_checkRedir hstrip hcheck (hfront'.trans hfront) hmem'
        fun h => h0 (List.mem_of_mem_take h)

end parse

/-- **Exactly on which lines the parser is safe:** those whose command has a
word, and no more words than `g_argv` has room for.  Any bytes may have been
read, and anything may lie in front of `cmd_line`. -/
theorem parse_safe_iff (s : State) {s₁ : State} {stream rest : List UInt8}
    (h : readLine s stream = some (s₁, rest)) :
    Safe s₁ ↔ Fits (words (command (fetched stream))) := by
  obtain ⟨post, hmem⟩ := readLine_mem h
  have h0 := zero_notMem_text (fetched stream)
  unfold command
  rcases List.eq_nil_or_concat (text (fetched stream)) with hnil | ⟨init, c, hlast⟩
  · rw [hnil] at hmem ⊢
    exact iff_of_false (not_safe_empty hmem) id
  · rw [List.concat_eq_append] at hlast
    rw [hlast] at hmem h0 ⊢
    rw [List.append_assoc] at hmem
    obtain ⟨b, hstrip, hfront, hb⟩ := strip_eq hmem h0
    rw [List.dropLast_concat]
    exact safe_iff_of_strip hstrip hfront hb fun h => h0 (List.mem_append_left _ h)

/-- `ls -a>f` is safe. -/
theorem parse_safe_iff_ls : ∃ s₁,
    readLine stale [108, 115, 32, 45, 97, 62, 102, 10] = some (s₁, []) ∧ Safe s₁ := by
  obtain ⟨s₁, hread⟩ : ∃ s₁,
      readLine stale [108, 115, 32, 45, 97, 62, 102, 10] = some (s₁, []) := ⟨_, rfl⟩
  exact ⟨s₁, hread, (parse_safe_iff stale hread).2 (by decide)⟩

/-- **A blank line is not:** `strcmp` gets a null pointer.  The redirection
finds nothing on it, and `strtok` no word. -/
theorem blank_line_fails : ∃ s₁, readLine stale [10] = some (s₁, []) ∧ ¬ Safe s₁ ∧
    ∃ b, strip s₁.cmdLine = some b ∧ checkRedir b = some (b, .none, none) ∧
      ∃ s₂, nextToken (some 0) 0 { s₁ with cmdLine := b, redirStatus := .none } =
        some (none, s₂) := by
  obtain ⟨s₁, hread⟩ : ∃ s₁, readLine stale [10] = some (s₁, []) := ⟨_, rfl⟩
  obtain ⟨post, hmem⟩ := readLine_mem hread
  have hcut : s₁.cmdLine.mem = [] ++ newline :: 0 :: post := hmem
  obtain ⟨b, hstrip, hfront, hb⟩ := strip_eq hcut (by decide)
  have hcheck : checkRedir b = some (b, .none, none) := checkRedir_clean hb nofun nofun
  obtain ⟨s₂, hnext⟩ :=
    nextToken_blank (s := { s₁ with cmdLine := b, redirStatus := .none }) (k := 0) hb
  exact ⟨s₁, hread, fun h => (safe_iff_of_strip hstrip hfront hb nofun).1 h, b, hstrip, hcheck,
    s₂, hnext⟩

end Shell
end OSNetWorkCode
