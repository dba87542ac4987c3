/-
# What `CheckRedir` and `strtok` do to a line

Every lemma here is about memory that is cut where something happens.  `scan`
goes over what holds no operator (`scan_skip`) and ends at the first one it
meets (`scan_input`, `scan_output`, `scan_append`).  A call of `strtok` goes
over spaces and a word and cuts the line behind the word, or finds nothing
(`strtok_token`, `strtok_end`).  The loop over `strtok` is by induction on the
words that are left (`fill_eq`): what lies in front of the pointer that
`strtok` keeps does not change any more, so a word, once it is cut, stays as it
is.
-/

import OSNetWorkCode.Shell.Model
import Mathlib.Data.List.Induction

namespace OSNetWorkCode
namespace Shell

/-! ### The scan for an operator -/

section scan

variable {n : ℕ} {b : Block n} {pre post : List UInt8}

/-- What holds no operator is gone over, byte by byte from the right, and left
as it is. -/
theorem scan_skip {file : List UInt8} (hmem : b.mem = pre ++ (file ++ post))
    (hfile : ∀ c ∈ file, c ≠ lt ∧ c ≠ gt) :
    scan b (pre.length + file.length) = scan b pre.length := by
  induction file using List.reverseRecOn generalizing post with
  | nil => rfl
  | append_singleton file c ih =>
    obtain ⟨hlt, hgt⟩ := hfile c (List.mem_append_right _ (List.mem_singleton_self c))
    have hmem₁ : b.mem = (pre ++ file) ++ c :: post := by rw [hmem]; simp
    have hload : b.load ((pre.length + file.length : ℕ) : ℤ) = some c :=
      Block.load_eq hmem₁ (by rw [List.length_append])
    have hrest : scan b (pre.length + file.length) = scan b pre.length :=
      ih (by rw [hmem, List.append_assoc]) fun c' hc' => hfile c' (List.mem_append_left _ hc')
    rw [List.length_append, List.length_singleton, ← Nat.add_assoc, ← hrest]
    show (b.load _).bind _ = _
    rw [hload, Option.bind_some, if_neg hgt, if_neg hlt]

/-- A `'<'` is overwritten, and the file name is behind it.  The byte in front
is not looked at. -/
theorem scan_input (hmem : b.mem = pre ++ lt :: post) :
    ∃ b' : Block n, scan b (pre.length + 1) = some (b', .input, ((pre.length + 1 : ℕ) : ℤ)) ∧
      b'.front = b.front ∧ b'.mem = pre ++ 0 :: post := by
  obtain ⟨b', hstore, hfront, hmem'⟩ := Block.store_eq hmem rfl 0
  refine ⟨b', ?_, hfront, hmem'⟩
  show (b.load _).bind _ = _
  rw [Block.load_eq hmem rfl, Option.bind_some, if_neg (by decide), if_pos rfl]
  show (b.store _ _).bind _ = _
  rw [hstore]
  rfl

/-- A `'>'` behind another byte is overwritten alone, and the byte in front of
it is not touched. -/
theorem scan_output {c : UInt8} (hmem : b.mem = pre ++ c :: gt :: post) (hc : c ≠ gt) :
    ∃ b' : Block n,
      scan b (pre.length + 1 + 1) = some (b', .output, ((pre.length + 1 + 1 : ℕ) : ℤ)) ∧
      b'.front = b.front ∧ b'.mem = pre ++ c :: 0 :: post := by
  have hmem₁ : b.mem = (pre ++ [c]) ++ gt :: post := by rw [hmem]; simp
  have hlen : pre.length + 1 = (pre ++ [c]).length := by simp
  obtain ⟨b', hstore, hfront, hmem'⟩ := Block.store_eq hmem₁ hlen 0
  refine ⟨b', ?_, hfront, by rw [hmem']; simp⟩
  have hbefore : ((pre.length + 1 : ℕ) : ℤ) - 1 = (pre.length : ℕ) := by omega
  show (b.load _).bind _ = _
  rw [Block.load_eq hmem₁ hlen, Option.bind_some, if_pos rfl]
  show (b.load _).bind _ = _
  rw [hbefore, Block.load_eq hmem rfl, Option.bind_some, if_neg hc]
  show (b.store _ _).bind _ = _
  rw [hstore]
  rfl

/-- Of `>>` the first byte is overwritten; the second stays, behind the end of
the command and in front of the file name. -/
theorem scan_append (hmem : b.mem = pre ++ gt :: gt :: post) :
    ∃ b' : Block n,
      scan b (pre.length + 1 + 1) = some (b', .append, ((pre.length + 1 + 1 : ℕ) : ℤ)) ∧
      b'.front = b.front ∧ b'.mem = pre ++ 0 :: gt :: post := by
  have hmem₁ : b.mem = (pre ++ [gt]) ++ gt :: post := by rw [hmem]; simp
  have hlen : pre.length + 1 = (pre ++ [gt]).length := by simp
  obtain ⟨b', hstore, hfront, hmem'⟩ := Block.store_eq hmem rfl 0
  refine ⟨b', ?_, hfront, hmem'⟩
  have hbefore : ((pre.length + 1 : ℕ) : ℤ) - 1 = (pre.length : ℕ) := by omega
  show (b.load _).bind _ = _
  rw [Block.load_eq hmem₁ hlen, Option.bind_some, if_pos rfl]
  show (b.load _).bind _ = _
  rw [hbefore, Block.load_eq hmem rfl, Option.bind_some, if_pos rfl]
  show (b.store _ _).bind _ = _
  rw [hstore]
  rfl

end scan

/-! ### Words and spaces -/

/-- What a word of a command is made of. -/
def wordByte (c : UInt8) : Prop := c ≠ sep ∧ c ≠ lt ∧ c ≠ gt ∧ c ≠ 0 ∧ c ≠ newline

/-- Whether a byte may be in a word can be computed. -/
instance (c : UInt8) : Decidable (wordByte c) := inferInstanceAs (Decidable (_ ∧ _))

/-- A word of a command. -/
structure Word where
  bytes : List UInt8
  ne_nil : bytes ≠ []
  clean : ∀ c ∈ bytes, wordByte c

/-- What `strtok` takes for a word: any bytes but spaces and terminators. -/
structure Token (w : List UInt8) : Prop where
  ne_nil : w ≠ []
  clean : ∀ c ∈ w, c ≠ sep ∧ c ≠ 0

/-- A word of a command is a word for `strtok`. -/
theorem Word.token (w : Word) : Token w.bytes :=
  ⟨w.ne_nil, fun c hc => ⟨(w.clean c hc).1, (w.clean c hc).2.2.2.1⟩⟩

/-- No word has a terminator in it. -/
theorem Token.zero_notMem {w : List UInt8} (h : Token w) : 0 ∉ w := fun h0 => (h.clean 0 h0).2 rfl

/-- So many spaces. -/
def spaces (k : ℕ) : List UInt8 := List.replicate k sep

/-- As many as were asked for. -/
@[simp] theorem length_spaces (k : ℕ) : (spaces k).length = k := List.length_replicate

/-- And nothing else. -/
theorem mem_spaces {k : ℕ} {c : UInt8} (h : c ∈ spaces k) : c = sep := List.eq_of_mem_replicate h

/-- Words with one space or more in front of each; the number is that of the
further spaces. -/
def pieces (ws : List (ℕ × Word)) : List UInt8 := ws.flatMap fun (k, w) => spaces (k + 1) ++ w.bytes

/-- The same for tokens. -/
def gaps (ws : List (ℕ × List UInt8)) : List UInt8 := ws.flatMap fun (k, w) => spaces (k + 1) ++ w

/-- The words of a command as tokens. -/
def tokens (ws : List (ℕ × Word)) : List (ℕ × List UInt8) := ws.map fun p => (p.1, p.2.bytes)

/-- Words written out as tokens are the words written out. -/
theorem gaps_tokens (ws : List (ℕ × Word)) : gaps (tokens ws) = pieces ws :=
  List.flatMap_map ..

/-- The words of a command are words for `strtok`, one and all. -/
theorem token_of_mem_tokens {ws : List (ℕ × Word)} {p : ℕ × List UInt8} (h : p ∈ tokens ws) :
    Token p.2 := by
  obtain ⟨q, -, rfl⟩ := List.mem_map.1 h
  exact q.2.token

/-- The first word of a rest with the space that is cut, and those beyond
it. -/
theorem gaps_cons (k : ℕ) (w : List UInt8) (ws : List (ℕ × List UInt8)) :
    gaps ((k, w) :: ws) = sep :: (spaces k ++ (w ++ gaps ws)) := by
  simp [gaps, spaces, List.replicate_succ]

/-- What follows a word: nothing, or a space first.  `strtok` cuts at that
space. -/
theorem gaps_append_spaces (ws : List (ℕ × List UInt8)) (t : ℕ) :
    gaps ws ++ spaces t = [] ∨ ∃ r, gaps ws ++ spaces t = sep :: r := by
  rcases ws with _ | ⟨⟨k, w⟩, ws⟩
  · rcases t with _ | t
    · exact .inl rfl
    · exact .inr ⟨spaces t, rfl⟩
  · rw [gaps_cons]
    exact .inr ⟨_, rfl⟩

/-! ### `strtok` -/

section strtok

variable {n k save : ℕ} {start : Option ℕ} {b : Block n} {pre post : List UInt8}

/-- Only spaces are left.  `strtok` finds nothing, and leaves the memory as it
is. -/
theorem strtok_end (hmem : b.mem = pre ++ (spaces k ++ 0 :: post))
    (hstart : start.getD save = pre.length) :
    ∃ save', strtok start save b = some (none, save', b) := by
  have hskip : b.span (· == sep) (start.getD save) = some k := by
    rw [Block.span_eq hmem hstart (fun c hc => beq_iff_eq.2 (mem_spaces hc)) (by decide),
      length_spaces]
  have hmem₁ : b.mem = (pre ++ spaces k) ++ 0 :: post := by rw [hmem, List.append_assoc]
  have hload : b.load ((start.getD save + k : ℕ) : ℤ) = some 0 :=
    Block.load_eq hmem₁ (by rw [List.length_append, length_spaces, hstart])
  refine ⟨start.getD save + k, ?_⟩
  show (b.span _ _).bind _ = _
  rw [hskip, Option.bind_some]
  show (b.load _).bind _ = _
  rw [hload, Option.bind_some, if_pos rfl]

/-- **A word is found behind the spaces and cut off.**  Where a space follows,
it becomes the terminator. -/
theorem strtok_token {w more : List UInt8} (hw : Token w)
    (hmore : more = [] ∨ ∃ r, more = sep :: r)
    (hmem : b.mem = pre ++ (spaces k ++ (w ++ (more ++ 0 :: post))))
    (hstart : start.getD save = pre.length) :
    ∃ (b' : Block n) (cut : List UInt8), strtok start save b =
        some (some (pre.length + k), (pre ++ spaces k ++ w ++ cut).length, b') ∧
      b'.front = b.front ∧
      b'.mem = pre ++ spaces k ++ w ++ cut ++ (more.drop 1 ++ 0 :: post) ∧
      (more = [] ∧ cut = [] ∨ more ≠ [] ∧ cut = [0]) := by
  obtain ⟨c₀, w', hcons⟩ := List.exists_cons_of_ne_nil hw.ne_nil
  have hc₀ : c₀ ≠ sep ∧ c₀ ≠ 0 := hw.clean c₀ (by rw [hcons]; exact List.mem_cons_self)
  have hlen : pre.length + k = (pre ++ spaces k).length := by
    rw [List.length_append, length_spaces]
  have hskip : b.span (· == sep) pre.length = some k := by
    rw [hcons] at hmem
    rw [Block.span_eq hmem rfl (fun c hc => beq_iff_eq.2 (mem_spaces hc))
      (beq_eq_false_iff_ne.2 hc₀.1), length_spaces]
  have hfirst : b.mem = (pre ++ spaces k) ++ c₀ :: (w' ++ (more ++ 0 :: post)) := by
    rw [hmem, hcons, List.append_assoc]
    rfl
  have hload : b.load ((pre.length + k : ℕ) : ℤ) = some c₀ := Block.load_eq hfirst hlen
  have hword : ∀ c ∈ w, (c != sep && c != 0) = true := by
    intro c hc
    obtain ⟨hsep, hzero⟩ := hw.clean c hc
    rw [Bool.and_eq_true]
    exact ⟨bne_iff_ne.2 hsep, bne_iff_ne.2 hzero⟩
  have hmem₁ : b.mem = (pre ++ spaces k) ++ (w ++ (more ++ 0 :: post)) := by
    rw [hmem, List.append_assoc]
  have hlen₁ : pre.length + k + w.length = (pre ++ spaces k ++ w).length := by
    rw [hlen, ← List.length_append]
  have hspan : b.span (fun c => c != sep && c != 0) (pre.length + k) = some w.length := by
    rcases hmore with rfl | ⟨r, rfl⟩
    · exact Block.span_eq hmem₁ hlen hword (by decide)
    · exact Block.span_eq hmem₁ hlen hword (by decide)
  unfold strtok
  show ∃ (b' : Block n) (cut : List UInt8), (b.span _ (start.getD save)).bind _ = _ ∧ _
  rw [hstart, hskip, Option.bind_some]
  show ∃ (b' : Block n) (cut : List UInt8), (b.load _).bind _ = _ ∧ _
  rw [hload, Option.bind_some, if_neg hc₀.2]
  show ∃ (b' : Block n) (cut : List UInt8), (b.span _ _).bind _ = _ ∧ _
  rw [hspan, Option.bind_some]
  rcases hmore with rfl | ⟨r, rfl⟩
  · have hstop : b.load ((pre.length + k + w.length : ℕ) : ℤ) = some 0 :=
      Block.load_eq (by rw [hmem₁, ← List.append_assoc]; rfl) hlen₁
    refine ⟨b, [], ?_, rfl, ?_, .inl ⟨rfl, rfl⟩⟩
    · show (b.load _).bind _ = _
      rw [hstop, Option.bind_some, if_pos rfl, List.append_nil, hlen₁]
    · rw [hmem₁, List.append_nil, ← List.append_assoc]
      rfl
  · have hmem₂ : b.mem = (pre ++ spaces k ++ w) ++ sep :: (r ++ 0 :: post) := by
      rw [hmem₁, ← List.append_assoc]
      rfl
    have hstop : b.load ((pre.length + k + w.length : ℕ) : ℤ) = some sep :=
      Block.load_eq hmem₂ hlen₁
    obtain ⟨b', hstore, hfront, hmem'⟩ := Block.store_eq hmem₂ hlen₁ 0
    refine ⟨b', [0], ?_, hfront, ?_, .inr ⟨List.cons_ne_nil _ _, rfl⟩⟩
    · show (b.load _).bind _ = _
      rw [hstop, Option.bind_some, if_neg (by decide)]
      show (b.store _ _).bind _ = _
      have hsave : (pre ++ spaces k ++ w ++ [0]).length =
          (pre ++ spaces k ++ w).length + 1 := List.length_append
      rw [hstore, Option.bind_some, hlen₁, hsave]
    · rw [hmem', List.append_assoc _ [0]]
      rfl

end strtok

/-! ### The loop -/

/-- A store into `g_argv` behind what is there.  It succeeds where the index is
below `SIZE`. -/
theorem Argv.store_eq (argv : Argv) {idx : ℕ} (hidx : idx < size) (p : Ptr) :
    ∃ argv', argv.store idx p = some argv' ∧
      argv'.entries.take (idx + 1) = argv.entries.take idx ++ [p] := by
  refine ⟨⟨argv.entries.set idx p, List.length_set.trans argv.length_entries⟩, if_pos hidx, ?_⟩
  have hlt : idx < (argv.entries.set idx p).length := by
    rw [List.length_set, argv.length_entries]
    exact hidx
  show (argv.entries.set idx p).take (idx + 1) = _
  rw [List.take_succ_eq_append_getElem hlt, List.getElem_set_self,
    List.take_set_of_le (Nat.le_refl _)]

/-- A call of `strtok` whose result is stored into `g_argv`. -/
theorem nextToken_eq {start token : Option ℕ} {idx save : ℕ} {s : State} {b : Block num}
    (h : strtok start s.save s.cmdLine = some (token, save, b)) (hidx : idx < size) :
    ∃ s', nextToken start idx s = some (token, s') ∧ s'.cmdLine = b ∧ s'.save = save ∧
      s'.redirStatus = s.redirStatus ∧
      s'.argv.entries.take (idx + 1) = s.argv.entries.take idx ++ [.ofToken token] := by
  obtain ⟨argv, hstore, htake⟩ := s.argv.store_eq hidx (.ofToken token)
  refine ⟨{ s with cmdLine := b, argv := argv, save := save }, ?_, rfl, rfl, rfl, htake⟩
  show (strtok start s.save s.cmdLine).bind _ = _
  rw [h, Option.bind_some]
  show (s.argv.store idx _).bind _ = _
  rw [hstore]
  rfl

/-- The rest behind a cut: the space that became the terminator is gone. -/
theorem drop_gaps_cons (k : ℕ) (w : List UInt8) (ws : List (ℕ × List UInt8)) (t : ℕ) :
    (gaps ((k, w) :: ws) ++ spaces t).drop 1 =
      spaces k ++ (w ++ (gaps ws ++ spaces t)) := by
  rw [gaps_cons]
  simp

/-- **A word that is cut off stays.**  Whatever becomes of the rest of the
line, the pointer to the word is the word.  This is what lets `g_argv` point
into a line that is still being split. -/
theorem word_stays {n k : ℕ} {b : Block n} {pre cut mid more post w : List UInt8} (hw : Token w)
    (hmem : b.mem = pre ++ spaces k ++ w ++ cut ++ (mid ++ 0 :: post))
    (hcut : more = [] ∧ cut = [] ∨ more ≠ [] ∧ cut = [0])
    (hmid : mid.length = (more.drop 1).length) :
    b.string (pre.length + k) = some w := by
  have hlen : pre.length + k = (pre ++ spaces k).length := by
    rw [List.length_append, length_spaces]
  rcases hcut with ⟨rfl, rfl⟩ | ⟨-, rfl⟩
  · obtain rfl := List.length_eq_zero_iff.1 hmid
    have hword : b.mem = (pre ++ spaces k) ++ (w ++ 0 :: post) := by
      rw [hmem]
      simp
    exact Block.string_eq hword hlen hw.zero_notMem
  · have hword : b.mem = (pre ++ spaces k) ++ (w ++ 0 :: (mid ++ 0 :: post)) := by
      rw [hmem]
      simp
    exact Block.string_eq hword hlen hw.zero_notMem

/-- The byte that became a terminator is the one that the rest of the line
begins with, so that no byte is lost in between. -/
theorem length_cut {cut mid more : List UInt8}
    (hcut : more = [] ∧ cut = [] ∨ more ≠ [] ∧ cut = [0])
    (hmid : mid.length = (more.drop 1).length) : cut.length + mid.length = more.length := by
  rcases hcut with ⟨rfl, rfl⟩ | ⟨hne, rfl⟩
  · rw [hmid]
    rfl
  · have hpos := List.length_pos_iff.2 hne
    rw [hmid, List.length_drop, List.length_singleton]
    omega

/-- **The loop over `strtok`.**  The words that are left get the next entries
of `g_argv`, with a null pointer behind them; what lies in front of the pointer
that `strtok` keeps, and what lies behind the terminator, is not touched. -/
theorem fill_eq (ws : List (ℕ × List UInt8)) (hws : ∀ p ∈ ws, Token p.2) {t left idx : ℕ}
    {s : State} {pre post : List UInt8}
    (hmem : s.cmdLine.mem = pre ++ ((gaps ws ++ spaces t).drop 1 ++ 0 :: post))
    (hsave : s.save = pre.length) (hleft : ws.length < left) (hidx : idx + left = size) :
    ∃ (s' : State) (mid : List UInt8) (ptrs : List Ptr), fill left idx s = some s' ∧
      s'.redirStatus = s.redirStatus ∧ s'.cmdLine.front = s.cmdLine.front ∧
      s'.cmdLine.mem = pre ++ (mid ++ 0 :: post) ∧
      mid.length = ((gaps ws ++ spaces t).drop 1).length ∧
      ptrs.map s'.string = ws.map (fun p => some p.2) ∧
      s'.argv.entries.take (idx + ws.length + 1) = s.argv.entries.take idx ++ ptrs ++ [.null] := by
  induction ws generalizing left idx s pre with
  | nil =>
    obtain ⟨left, rfl⟩ : ∃ left', left = left' + 1 := ⟨left - 1, by omega⟩
    have hspaces : (gaps [] ++ spaces t).drop 1 = spaces (t - 1) := by
      simp [gaps, spaces]
    rw [hspaces] at hmem ⊢
    have hstart : none.getD s.save = pre.length := hsave
    have hlt : idx < size := by omega
    obtain ⟨save', htok⟩ := strtok_end hmem hstart
    obtain ⟨s', hnext, hcmd, -, hredir, hargv⟩ := nextToken_eq htok hlt
    refine ⟨s', spaces (t - 1), [], ?_, hredir, by rw [hcmd], by rw [hcmd, hmem], rfl, rfl, ?_⟩
    · show (nextToken none idx s).bind _ = _
      rw [hnext]
      rfl
    · rw [List.append_nil]
      exact hargv
  | cons p ws ih =>
    obtain ⟨k, w⟩ := p
    have hw : Token w := hws (k, w) List.mem_cons_self
    obtain ⟨left, rfl⟩ : ∃ left', left = left' + 1 := ⟨left - 1, by omega⟩
    have hlen : ws.length < left := by
      rw [List.length_cons] at hleft
      omega
    have hstart : none.getD s.save = pre.length := hsave
    have hlt : idx < size := by omega
    have hidx' : idx + 1 + left = size := by omega
    rw [drop_gaps_cons] at hmem ⊢
    rw [List.append_assoc (spaces k), List.append_assoc w] at hmem
    obtain ⟨b, cut, htok, hfront, hmem₁, hcut⟩ :=
      strtok_token hw (gaps_append_spaces ws t) hmem hstart
    obtain ⟨s₁, hnext, hcmd, hsave₁, hredir₁, hargv₁⟩ := nextToken_eq htok hlt
    rw [← hcmd] at hmem₁
    obtain ⟨s', mid, ptrs, hfill, hredir, hfront', hmem', hmid, hptrs, hargv⟩ :=
      ih (fun q hq => hws q (List.mem_cons_of_mem _ hq)) hmem₁ hsave₁ hlen hidx'
    refine ⟨s', spaces k ++ w ++ cut ++ mid, .cmd (pre.length + k) :: ptrs, ?_,
      hredir.trans hredir₁, ?_, ?_, ?_, ?_, ?_⟩
    · show (nextToken none idx s).bind _ = _
      rw [hnext]
      exact hfill
    · rw [hfront', hcmd, hfront]
    · rw [hmem']
      simp
    · have hcutlen := length_cut hcut hmid
      simp only [List.length_append] at hcutlen ⊢
      omega
    · rw [List.map_cons, List.map_cons, hptrs]
      exact congrArg (· :: _) (word_stays hw hmem' hcut hmid)
    · have hcount : idx + (ws.length + 1) + 1 = idx + 1 + ws.length + 1 := by omega
      rw [List.length_cons, hcount, hargv, hargv₁]
      simp [Ptr.ofToken]

/-- `g_argv` for a command of these words: `--color=auto` follows a first word
`ls`. -/
def argvOf (first : Word) (rest : List Word) : List (List UInt8) :=
  if first.bytes = ls then first.bytes :: colorAuto :: rest.map Word.bytes
  else first.bytes :: rest.map Word.bytes

/-- The same for tokens. -/
def argvOfTokens (first : List UInt8) (rest : List (List UInt8)) : List (List UInt8) :=
  if first = ls then first :: colorAuto :: rest else first :: rest

/-- For the words of a command it is the same. -/
theorem argvOfTokens_tokens (first : Word) (ws : List (ℕ × Word)) :
    argvOfTokens first.bytes ((tokens ws).map Prod.snd) = argvOf first (ws.map Prod.snd) := by
  rw [argvOfTokens, argvOf, tokens, List.map_map, List.map_map]
  rfl

/-- The loop behind the first word, with the first `idx` entries of `g_argv`
filled.  It is one of them, or two behind `ls`. -/
theorem fill_first {first : List UInt8} (hfirst : Token first) {ws : List (ℕ × List UInt8)}
    (hws : ∀ p ∈ ws, Token p.2) {k t left idx : ℕ} {s : State} {cut post : List UInt8}
    (hmem : s.cmdLine.mem = spaces k ++ first ++ cut ++
      ((gaps ws ++ spaces t).drop 1 ++ 0 :: post))
    (hcut : gaps ws ++ spaces t = [] ∧ cut = [] ∨ gaps ws ++ spaces t ≠ [] ∧ cut = [0])
    (hsave : s.save = (spaces k ++ first ++ cut).length) (hleft : ws.length < left)
    (hidx : idx + left = size) :
    ∃ (s' : State) (mid : List UInt8), fill left idx s = some s' ∧
      s'.redirStatus = s.redirStatus ∧ s'.cmdLine.front = s.cmdLine.front ∧
      s'.cmdLine.mem = mid ++ 0 :: post ∧
      mid.length = (spaces k ++ (first ++ (gaps ws ++ spaces t))).length ∧
      s'.string (.cmd k) = some first ∧
      ∃ ptrs, s'.argv.entries.take (idx + ws.length + 1) =
          s.argv.entries.take idx ++ ptrs ++ [.null] ∧
        ptrs.map s'.string = ws.map fun p => some p.2 := by
  obtain ⟨s', mid, ptrs, hfill, hredir, hfront, hmem', hmid, hptrs, hargv⟩ :=
    fill_eq ws hws hmem hsave hleft hidx
  refine ⟨s', spaces k ++ first ++ cut ++ mid, hfill, hredir, hfront, ?_, ?_, ?_,
    ptrs, hargv, hptrs⟩
  · rw [hmem', ← List.append_assoc _ mid]
  · have hcutlen := length_cut hcut hmid
    simp only [List.length_append] at hcutlen ⊢
    omega
  · have hpre : s'.cmdLine.mem = [] ++ spaces k ++ first ++ cut ++ (mid ++ 0 :: post) := hmem'
    have hword := word_stays hfirst hpre hcut hmid
    rwa [List.length_nil, Nat.zero_add] at hword

/-- **The first call of `strtok` cuts the first word off.**  It begins at
`cmd_line` itself, so that no pointer of an earlier line is used. -/
theorem nextToken_first {first : List UInt8} (hfirst : Token first) (ws : List (ℕ × List UInt8))
    {k t : ℕ} {s : State} {post : List UInt8}
    (hmem : s.cmdLine.mem = spaces k ++ (first ++ (gaps ws ++ spaces t)) ++ 0 :: post) :
    ∃ (s₁ : State) (cut : List UInt8), nextToken (some 0) 0 s = some (some k, s₁) ∧
      s₁.redirStatus = s.redirStatus ∧ s₁.cmdLine.front = s.cmdLine.front ∧
      s₁.cmdLine.mem = spaces k ++ first ++ cut ++ ((gaps ws ++ spaces t).drop 1 ++ 0 :: post) ∧
      (gaps ws ++ spaces t = [] ∧ cut = [] ∨ gaps ws ++ spaces t ≠ [] ∧ cut = [0]) ∧
      s₁.save = (spaces k ++ first ++ cut).length ∧ s₁.cmdLine.string k = some first ∧
      s₁.argv.entries.take 1 = [.cmd k] := by
  have hmem₀ : s.cmdLine.mem =
      [] ++ (spaces k ++ (first ++ (gaps ws ++ spaces t ++ 0 :: post))) := by
    rw [hmem]
    simp
  have hstart : (some 0).getD s.save = ([] : List UInt8).length := rfl
  have hzero : 0 < size := by decide
  obtain ⟨b, cut, htok, hfront, hmem₁, hcut⟩ :=
    strtok_token hfirst (gaps_append_spaces ws t) hmem₀ hstart
  obtain ⟨s₁, hnext, hcmd, hsave, hredir, hargv⟩ := nextToken_eq htok hzero
  simp only [List.length_nil, Nat.zero_add] at hnext hargv
  rw [← hcmd] at hmem₁
  have hword := word_stays hfirst hmem₁ hcut rfl
  rw [List.length_nil, Nat.zero_add] at hword
  exact ⟨s₁, cut, hnext, hredir, by rw [hcmd, hfront], hmem₁, hcut, hsave, hword, hargv⟩

/-- **A command is split into its words.**  The first entries of `g_argv` point
to them, a null pointer follows, and what lies behind the terminator of the
command is not touched. -/
theorem split_eq {first : List UInt8} (hfirst : Token first) (ws : List (ℕ × List UInt8))
    (hws : ∀ p ∈ ws, Token p.2) {k t : ℕ} {s : State} {post : List UInt8}
    (hmem : s.cmdLine.mem = spaces k ++ (first ++ (gaps ws ++ spaces t)) ++ 0 :: post)
    (hargv : (argvOfTokens first (ws.map Prod.snd)).length < size) :
    ∃ (s' : State) (mid : List UInt8), split s = some s' ∧ s'.redirStatus = s.redirStatus ∧
      s'.cmdLine.front = s.cmdLine.front ∧ s'.cmdLine.mem = mid ++ 0 :: post ∧
      mid.length = (spaces k ++ (first ++ (gaps ws ++ spaces t))).length ∧
      ∃ ptrs, s'.argv.entries.take ((argvOfTokens first (ws.map Prod.snd)).length + 1) =
          ptrs ++ [.null] ∧
        ptrs.map s'.string = (argvOfTokens first (ws.map Prod.snd)).map some := by
  have hone : 1 < size := by decide
  obtain ⟨s₁, cut, hnext, hredir₁, hfront₁, hmem₁, hcut, hsave₁, hword, hargv₁⟩ :=
    nextToken_first hfirst ws hmem
  unfold split
  show ∃ (s' : State) (mid : List UInt8), (nextToken _ _ _).bind _ = _ ∧ _
  rw [hnext, Option.bind_some]
  show ∃ (s' : State) (mid : List UInt8), (s₁.cmdLine.string _).bind _ = _ ∧ _
  rw [hword, Option.bind_some]
  by_cases hls : first = ls
  · obtain ⟨argv, hstore, htake⟩ := s₁.argv.store_eq hone .color
    have hlen : (argvOfTokens first (ws.map Prod.snd)).length = 2 + ws.length := by
      rw [argvOfTokens, if_pos hls]
      simp
      omega
    have hleft : ws.length < size - 2 := by omega
    obtain ⟨s', mid, hfill, hredir, hfront', hmem', hmid, hstring, ptrs, hentries, hptrs⟩ :=
      fill_first (s := { s₁ with argv := argv }) hfirst hws hmem₁ hcut hsave₁ hleft rfl
    refine ⟨s', mid, ?_, hredir.trans hredir₁, hfront'.trans hfront₁, hmem', hmid,
      .cmd k :: .color :: ptrs, ?_, ?_⟩
    · rw [if_pos hls]
      show (s₁.argv.store 1 .color).bind _ = _
      rw [hstore]
      exact hfill
    · rw [hlen, hentries, htake, hargv₁]
      simp
    · have hcolor : s'.string .color = some colorAuto := rfl
      rw [List.map_cons, List.map_cons, hstring, hcolor, hptrs, argvOfTokens, if_pos hls]
      simp
  · have hlen : (argvOfTokens first (ws.map Prod.snd)).length = 1 + ws.length := by
      rw [argvOfTokens, if_neg hls]
      simp
      omega
    have hleft : ws.length < size - 1 := by omega
    obtain ⟨s', mid, hfill, hredir, hfront', hmem', hmid, hstring, ptrs, hentries, hptrs⟩ :=
      fill_first hfirst hws hmem₁ hcut hsave₁ hleft rfl
    refine ⟨s', mid, ?_, hredir.trans hredir₁, hfront'.trans hfront₁, hmem', hmid,
      .cmd k :: ptrs, ?_, ?_⟩
    · rw [if_neg hls]
      exact hfill
    · rw [hlen, hentries, hargv₁]
      simp
    · rw [List.map_cons, hstring, hptrs, argvOfTokens, if_neg hls]
      simp

end Shell
end OSNetWorkCode
