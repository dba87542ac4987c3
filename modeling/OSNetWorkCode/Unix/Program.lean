/-
# Programs and their standard streams

What a program does, from its start to its end, is a tree: it reads and writes
through the descriptors `0`, `1` and `2` it has inherited, does what it likes
to the files by their paths, and goes on as the answers tell it.  A program
that never ends is none of these.

Run in a process it goes through a table of descriptors and the kernel's open
files (`Program.exec`).  Where its three descriptors stand for three streams,
and share an open file at most where that has no position (`Stands`), it does
what it does run directly on the streams (`Program.run`): `Stands.exec_world`.
Another process may make one call meanwhile, before any of the calls of the
program or behind all of them (`Turn`).
-/

import OSNetWorkCode.Unix.Files

namespace OSNetWorkCode
namespace Unix

open Function

universe u

/-- How a process ends: by `exit`, or by a signal. -/
inductive Status
  | exited (code : ℕ)
  | signaled (sig : ℕ)
  deriving DecidableEq

/-- The status that `waitpid` stores. -/
def Status.word : Status → ℕ
  | .exited code => code % 256 * 256
  | .signaled sig => sig % 128

/-- `WEXITSTATUS(status)`. -/
def wexitstatus (status : ℕ) : ℕ := status / 256 % 256

/-- What a program does. -/
inductive Program (P : Type u) : Type u
  | stop (status : Status)
  | read (fd : Fin 3) (n : ℕ) (next : Option (List UInt8) → Program P)
  | write (fd : Fin 3) (bytes : List UInt8) (next : Option ℕ → Program P)
  /-- Anything else that it does to the files. -/
  | change (f : Files P → Files P) (next : Files P → Program P)

/-- Standard input, output and error. -/
abbrev Std (P : Type*) := Fin 3 → Stream P

/-- When another process makes a call: behind so many calls of this one; `none`
once it was made. -/
abbrev Turn := Option ℕ

namespace Turn

variable {α : Type*}

/-- Before a call of this process: the other one makes its own if it is its
turn. -/
def next (other : α → α) : Turn → α → Turn × α
  | none, a => (none, a)
  | some 0, a => (none, other a)
  | some (n + 1), a => (some n, a)

/-- This process has ended, and the other one makes its call. -/
def last (other : α → α) : Turn → α → α
  | none, a => a
  | some _, a => other a

end Turn

namespace Program

variable {P : Type*} [DecidableEq P]

/-- The program run on streams.  This is what it means to a reader; `exec` is
what it is in a process. -/
def run (other : World P → World P) : Program P → Turn → Std P → World P → Status × World P
  | .stop status, turn, _, w => (status, turn.last other w)
  | .read fd n next, turn, io, w =>
    let r := (io fd).read n (turn.next other w).2
    (next r.1).run other (turn.next other w).1 (update io fd r.2.1) r.2.2
  | .write fd bytes next, turn, io, w =>
    let r := (io fd).write bytes (turn.next other w).2
    (next r.1).run other (turn.next other w).1 (update io fd r.2.1) r.2.2
  | .change f next, turn, io, w =>
    let w' := (turn.next other w).2
    (next w'.files).run other (turn.next other w).1 io { w' with files := f w'.files }

/-- The program run in a process with table `t`. -/
def exec (other : Kernel P → Kernel P) :
    Program P → Turn → FdTable ℕ → Kernel P → Status × Kernel P
  | .stop status, turn, _, k => (status, turn.last other k)
  | .read fd n next, turn, t, k =>
    let r := (turn.next other k).2.read t fd n
    (next r.1).exec other (turn.next other k).1 t r.2
  | .write fd bytes next, turn, t, k =>
    let r := (turn.next other k).2.write t fd bytes
    (next r.1).exec other (turn.next other k).1 t r.2
  | .change f next, turn, t, k =>
    let k' := (turn.next other k).2
    (next k'.world.files).exec other (turn.next other k).1 t
      { k' with world := { k'.world with files := f k'.world.files } }

end Program

/-! ### Descriptors that stand for streams -/

/-- The standard descriptors of a table stand for these streams. -/
structure Stands {P : Type*} (t : FdTable ℕ) (k : Kernel P) (io : Std P) : Prop where
  stream : ∀ fd : Fin 3, k.stream t fd = some (io fd)
  /-- An open file with a position is not shared among them. -/
  apart : ∀ fd fd' : Fin 3, fd ≠ fd' → t.get fd = t.get fd' → (io fd).Still

section stands

variable {P : Type*} {t : FdTable ℕ} {k : Kernel P} {io : Std P}

/-- What is open under a descriptor is found in two steps: the table gives an
open file, and the kernel what it stands for. -/
theorem Kernel.stream_eq_some {fd : ℕ} {s : Stream P} :
    k.stream t fd = some s ↔ ∃ d, t.get fd = some d ∧ k.opened[d]? = some s :=
  Option.bind_eq_some_iff

/-- **A call on one of the streams** leaves the others where they are: an open
file that two of them share has no position to be moved. -/
theorem Stands.update {d : ℕ} {fd : Fin 3} {s : Stream P} {w : World P} (h : Stands t k io)
    (hd : t.get fd = some d) (hs : (io fd).Still → s = io fd) :
    Stands t ⟨w, k.opened.set d s⟩ (update io fd s) := by
  obtain ⟨d', hd', hopened⟩ := Kernel.stream_eq_some.1 (h.stream fd)
  obtain rfl : d = d' := Option.some.inj (hd.symm.trans hd')
  have hlt : d < k.opened.length := (List.getElem?_eq_some_iff.1 hopened).1
  constructor
  · intro fd'
    by_cases hfd : fd' = fd
    · subst hfd
      rw [update_self, Kernel.stream_eq_some]
      exact ⟨d, hd, by rw [List.getElem?_set_self hlt]⟩
    · rw [update_of_ne hfd]
      obtain ⟨d', hd', hopened'⟩ := Kernel.stream_eq_some.1 (h.stream fd')
      refine Kernel.stream_eq_some.2 ⟨d', hd', ?_⟩
      by_cases hdd : d = d'
      · -- shared, so it is a stream without a position
        subst hdd
        have hstill := h.apart fd fd' (Ne.symm hfd) (hd.trans hd'.symm)
        rw [List.getElem?_set_self hlt, hs hstill]
        exact hopened.symm.trans hopened'
      · rw [List.getElem?_set_ne hdd]
        exact hopened'
  · intro fd₁ fd₂ hne heq
    have hstill := h.apart fd₁ fd₂ hne heq
    by_cases hfd : fd₁ = fd
    · subst hfd
      rw [update_self, hs hstill]
      exact hstill
    · rwa [update_of_ne hfd]

/-- **A file that was opened and put over one of the descriptors** is its
stream; the others stand for what they did. -/
theorem Stands.over (h : Stands t k io) (fd : Fin 3) (s : Stream P) (w : World P) :
    Stands ((t.openLowest k.opened.length).dup2 t.lowest fd) ⟨w, k.opened ++ [s]⟩
      (Function.update io fd s) := by
  have hnew : (t.openLowest k.opened.length).get t.lowest = some k.opened.length := by
    rw [FdTable.get_openLowest, if_pos rfl]
  have hget : ∀ fd' : Fin 3, fd' ≠ fd → ∃ d, d < k.opened.length ∧ k.opened[d]? = some (io fd') ∧
      ((t.openLowest k.opened.length).dup2 t.lowest fd).get fd' = some d ∧ t.get fd' = some d := by
    intro fd' hfd
    obtain ⟨d, hd, hopened⟩ := Kernel.stream_eq_some.1 (h.stream fd')
    refine ⟨d, (List.getElem?_eq_some_iff.1 hopened).1, hopened, ?_, hd⟩
    rw [FdTable.get_dup2 hnew, if_neg (fun heq => hfd (Fin.ext heq)), FdTable.get_openLowest_iff]
    exact .inr hd
  have hover : ((t.openLowest k.opened.length).dup2 t.lowest fd).get fd = some k.opened.length := by
    rw [FdTable.get_dup2 hnew, if_pos rfl]
  constructor
  · intro fd'
    by_cases hfd : fd' = fd
    · subst hfd
      rw [update_self, Kernel.stream_eq_some]
      exact ⟨_, hover, List.getElem?_concat_length⟩
    · obtain ⟨d, hlt, hopened, hd, -⟩ := hget fd' hfd
      rw [update_of_ne hfd, Kernel.stream_eq_some]
      exact ⟨d, hd, (List.getElem?_append_left hlt).trans hopened⟩
  · intro fd₁ fd₂ hne heq
    by_cases h₁ : fd₁ = fd
    · -- nothing else stands for the new file
      subst h₁
      obtain ⟨d, hlt, -, hd, -⟩ := hget fd₂ (Ne.symm hne)
      rw [hover, hd] at heq
      exact absurd (Option.some.inj heq) (Nat.ne_of_gt hlt)
    · by_cases h₂ : fd₂ = fd
      · subst h₂
        obtain ⟨d, hlt, -, hd, -⟩ := hget fd₁ hne
        rw [hover, hd] at heq
        exact absurd (Option.some.inj heq) (Nat.ne_of_lt hlt)
      · obtain ⟨d₁, -, -, hd₁, ht₁⟩ := hget fd₁ h₁
        obtain ⟨d₂, -, -, hd₂, ht₂⟩ := hget fd₂ h₂
        rw [hd₁, hd₂] at heq
        rw [update_of_ne h₁]
        exact h.apart fd₁ fd₂ hne (by rw [ht₁, ht₂, heq])

/-- What is done to the world alone changes nothing about which streams the
descriptors stand for. -/
theorem Stands.world (h : Stands t k io) (w : World P) : Stands t { k with world := w } io :=
  ⟨h.stream, h.apart⟩

/-! ### What other processes see of it -/

/-- Reading takes nothing from what the terminal shows. -/
theorem Stream.read_output (s : Stream P) (n : ℕ) (w : World P) :
    w.output <+: (s.read n w).2.2.output := by
  cases s <;> exact List.prefix_rfl

/-- Every open file without a position is open still, in the same way, and what
the terminal shows stays there.  This is what one process can rely on while
another is running. -/
structure Kernel.Keeps (k k' : Kernel P) : Prop where
  still : ∀ (d : ℕ) (s : Stream P), s.Still → k.opened[d]? = some s → k'.opened[d]? = some s
  output : k.world.output <+: k'.world.output

namespace Kernel

/-- Where nothing happens, everything is kept. -/
theorem keeps_rfl (k : Kernel P) : k.Keeps k := ⟨fun _ _ _ h => h, List.prefix_rfl⟩

/-- What is kept twice is kept, so that `Keeps` can be carried along a run. -/
theorem Keeps.trans {k₁ k₂ k₃ : Kernel P} (h₁ : k₁.Keeps k₂) (h₂ : k₂.Keeps k₃) : k₁.Keeps k₃ :=
  ⟨fun d s hstill hs => h₂.still d s hstill (h₁.still d s hstill hs), h₁.output.trans h₂.output⟩

/-- A descriptor that stood for such a stream does so still. -/
theorem Keeps.stream {k' : Kernel P} {fd : ℕ} {s : Stream P} (h : k.Keeps k') (hstill : s.Still)
    (hs : k.stream t fd = some s) : k'.stream t fd = some s := by
  obtain ⟨d, hd, hopened⟩ := stream_eq_some.1 hs
  exact stream_eq_some.2 ⟨d, hd, h.still d s hstill hopened⟩

/-- A call on an open file keeps the others, and its own if it has no
position. -/
theorem Keeps.set {d : ℕ} {s s' : Stream P} {w : World P} (hd : k.opened[d]? = some s)
    (hs : s.Still → s' = s) (hw : k.world.output <+: w.output) : k.Keeps ⟨w, k.opened.set d s'⟩ := by
  refine ⟨fun d' s₀ hstill hopened => ?_, hw⟩
  by_cases hdd : d = d'
  · subst hdd
    obtain rfl := Option.some.inj (hd.symm.trans hopened)
    rw [List.getElem?_set_self (List.getElem?_eq_some_iff.1 hd).1, hs hstill]
  · rw [List.getElem?_set_ne hdd]
    exact hopened

/-- `read` moves the position of its own open file and nothing else. -/
theorem read_keeps (k : Kernel P) (t : FdTable ℕ) (fd n : ℕ) : k.Keeps (k.read t fd n).2 := by
  unfold read
  split
  · exact k.keeps_rfl
  · split
    · exact k.keeps_rfl
    · rename_i s hs
      exact .set hs (fun hstill => hstill.read n k.world) (s.read_output n k.world)

/-- Another process that keeps this does so also when it is its turn. -/
theorem keeps_turn {other : Kernel P → Kernel P} (hother : ∀ k : Kernel P, k.Keeps (other k))
    (turn : Turn) (k : Kernel P) : k.Keeps (turn.next other k).2 := by
  match turn with
  | none | some (n + 1) => exact k.keeps_rfl
  | some 0 => exact hother k

/-- And when its turn comes behind all calls of the program. -/
theorem keeps_last {other : Kernel P → Kernel P} (hother : ∀ k : Kernel P, k.Keeps (other k))
    (turn : Turn) (k : Kernel P) : k.Keeps (turn.last other k) := by
  match turn with
  | none => exact k.keeps_rfl
  | some n => exact hother k

end Kernel

/-! ### A program in a process -/

/-- The terminal shows some more. -/
def World.show (w : World P) (bytes : List UInt8) : World P :=
  { w with output := w.output ++ bytes }

/-- Behind its turn, another process has shown its bytes or not.  Either way it
has shown some. -/
theorem World.next_eq (turn : Turn) (bytes : List UInt8) (w : World P) :
    ∃ more, (turn.next (World.show · bytes) w).2 = w.show more := by
  match turn with
  | none | some (n + 1) => exact ⟨[], by rw [World.show, List.append_nil]; rfl⟩
  | some 0 => exact ⟨bytes, rfl⟩

/-- The same behind all calls of the program. -/
theorem World.last_eq (turn : Turn) (bytes : List UInt8) (w : World P) :
    ∃ more, turn.last (World.show · bytes) w = w.show more := by
  match turn with
  | none => exact ⟨[], by rw [World.show, List.append_nil]; rfl⟩
  | some n => exact ⟨bytes, rfl⟩

/-- Showing bytes keeps everything that is open. -/
theorem Kernel.keeps_next (k : Kernel P) (turn : Turn) (bytes : List UInt8) :
    k.Keeps { k with world := (turn.next (World.show · bytes) k.world).2 } := by
  obtain ⟨more, hmore⟩ := World.next_eq turn bytes k.world
  rw [hmore]
  exact ⟨fun _ _ _ h => h, List.prefix_append _ _⟩

/-- The other process shows its bytes at the terminal, whatever the program has
done meanwhile to what it does not share with it. -/
def Kernel.Shows (k : Kernel P) (other : Kernel P → Kernel P) (bytes : List UInt8) : Prop :=
  ∀ k', k.Keeps k' → other k' = { k' with world := k'.world.show bytes }

/-- Where the other process shows its bytes, its turn is one of the world
alone. -/
theorem Kernel.Shows.next_eq {other : Kernel P → Kernel P} {bytes : List UInt8}
    (h : k.Shows other bytes) (turn : Turn) : turn.next other k =
      ((turn.next (World.show · bytes) k.world).1,
        { k with world := (turn.next (World.show · bytes) k.world).2 }) := by
  match turn with
  | none | some (n + 1) => rfl
  | some 0 => exact congrArg (Prod.mk none) (h k k.keeps_rfl)

/-- And so it is behind all calls of the program. -/
theorem Kernel.Shows.last_eq {other : Kernel P → Kernel P} {bytes : List UInt8}
    (h : k.Shows other bytes) (turn : Turn) : turn.last other k =
      { k with world := turn.last (World.show · bytes) k.world } := by
  match turn with
  | none => rfl
  | some n => exact h k k.keeps_rfl

/-- It shows them also after whatever keeps what it relies on. -/
theorem Kernel.Shows.mono {k' : Kernel P} {other : Kernel P → Kernel P} {bytes : List UInt8}
    (h : k.Shows other bytes) (hk : k.Keeps k') : k'.Shows other bytes :=
  fun k'' hk' => h k'' (hk.trans hk')

variable [DecidableEq P]

/-- What is written to the terminal is shown there, all of it: such a write is
never partial here. -/
theorem Kernel.write_terminal {fd : ℕ} (h : k.stream t fd = some .terminal) (bytes : List UInt8) :
    k.write t fd bytes =
      (some bytes.length, { k with world := k.world.show bytes }) := by
  obtain ⟨d, hd, hopened⟩ := Kernel.stream_eq_some.1 h
  obtain ⟨hlt, hget⟩ := List.getElem?_eq_some_iff.1 hopened
  have hset : k.opened.set d .terminal = k.opened := by
    rw [← hget]
    exact List.set_getElem_self hlt
  simp only [Kernel.write, hd, hopened, Stream.write, hset, World.show]

/-- Writing takes nothing from what the terminal shows. -/
theorem Stream.write_output (s : Stream P) (bytes : List UInt8) (w : World P) :
    w.output <+: (s.write bytes w).2.2.output := by
  cases s with
  | terminal => exact List.prefix_append _ _
  | reading | writing | appending => exact List.prefix_rfl

namespace Kernel

/-- `write` changes its own open file, the file behind it and what the terminal
shows, to which it adds. -/
theorem write_keeps (k : Kernel P) (t : FdTable ℕ) (fd : ℕ) (bytes : List UInt8) :
    k.Keeps (k.write t fd bytes).2 := by
  unfold write
  split
  · exact k.keeps_rfl
  · split
    · exact k.keeps_rfl
    · rename_i s hs
      exact .set hs (fun hstill => hstill.write bytes k.world) (s.write_output bytes k.world)

/-- `open` adds an open file, or fails and adds none. -/
theorem openFile_keeps {Dir : Type*} (k : Kernel P) (names : Names Dir P) (flags : Flags)
    (dir : Dir) (name : List UInt8) (t : FdTable ℕ) :
    k.Keeps (k.openFile names flags dir name t).2.2 := by
  unfold openFile
  split
  · refine ⟨fun d s _ hs => ?_, List.prefix_rfl⟩
    exact (List.getElem?_append_left (List.getElem?_eq_some_iff.1 hs).1).trans hs
  · exact k.keeps_rfl

end Kernel

/-- **A program does through its descriptors what it does on the streams,**
with the same status and the same world in the end, by induction on the
program. -/
theorem Stands.exec_world {other : Kernel P → Kernel P} {bytes : List UInt8}
    (program : Program P) (turn : Turn) (h : Stands t k io) (hother : k.Shows other bytes) :
    (program.exec other turn t k).1 = (program.run (World.show · bytes) turn io k.world).1 ∧
      (program.exec other turn t k).2.world =
        (program.run (World.show · bytes) turn io k.world).2 := by
  induction program generalizing turn k io with
  | stop status => exact ⟨rfl, by rw [Program.exec, hother.last_eq]; rfl⟩
  | read fd n next ih =>
    simp only [Program.exec, Program.run, hother.next_eq]
    have hkeeps := k.keeps_next turn bytes
    generalize turn.next (World.show · bytes) k.world = r at hkeeps
    obtain ⟨turn', w⟩ := r
    obtain ⟨d, hd, hopened⟩ := Kernel.stream_eq_some.1 (h.stream fd)
    have hread : Kernel.read ⟨w, k.opened⟩ t fd n = (((io fd).read n w).1,
        ⟨((io fd).read n w).2.2, k.opened.set d ((io fd).read n w).2.1⟩) := by
      simp only [Kernel.read, hd, hopened]
    have hafter := hkeeps.trans (Kernel.read_keeps ⟨w, k.opened⟩ t fd n)
    rw [hread] at hafter ⊢
    exact ih _ _ (h.update hd fun hstill => hstill.read n w) (hother.mono hafter)
  | write fd bytes' next ih =>
    simp only [Program.exec, Program.run, hother.next_eq]
    have hkeeps := k.keeps_next turn bytes
    generalize turn.next (World.show · bytes) k.world = r at hkeeps
    obtain ⟨turn', w⟩ := r
    obtain ⟨d, hd, hopened⟩ := Kernel.stream_eq_some.1 (h.stream fd)
    have hwrite : Kernel.write ⟨w, k.opened⟩ t fd bytes' = (((io fd).write bytes' w).1,
        ⟨((io fd).write bytes' w).2.2, k.opened.set d ((io fd).write bytes' w).2.1⟩) := by
      simp only [Kernel.write, hd, hopened]
    have hafter := hkeeps.trans (Kernel.write_keeps ⟨w, k.opened⟩ t fd bytes')
    rw [hwrite] at hafter ⊢
    exact ih _ _ (h.update hd fun hstill => hstill.write bytes' w) (hother.mono hafter)
  | change f next ih =>
    simp only [Program.exec, Program.run, hother.next_eq]
    have hkeeps := k.keeps_next turn bytes
    generalize turn.next (World.show · bytes) k.world = r at hkeeps
    obtain ⟨turn', w⟩ := r
    exact ih _ _ (h.world _) (hother.mono ⟨hkeeps.still, hkeeps.output⟩)

/-- **A program leaves every other process its streams** that have no position,
and the terminal what it shows. -/
theorem Program.exec_keeps {other : Kernel P → Kernel P} (hother : ∀ k : Kernel P, k.Keeps (other k))
    (program : Program P) (turn : Turn) (t : FdTable ℕ) (k : Kernel P) :
    k.Keeps (program.exec other turn t k).2 := by
  induction program generalizing turn k with
  | stop status => exact Kernel.keeps_last hother turn k
  | read fd n next ih =>
    exact ((Kernel.keeps_turn hother turn k).trans (Kernel.read_keeps _ t fd n)).trans (ih _ _ _)
  | write fd bytes next ih =>
    exact ((Kernel.keeps_turn hother turn k).trans (Kernel.write_keeps _ t fd bytes)).trans
      (ih _ _ _)
  | change f next ih =>
    refine (Kernel.keeps_turn hother turn k).trans ?_
    have hnext := ih (turn.next other k).2.world.files (turn.next other k).1
      { (turn.next other k).2 with
        world := { (turn.next other k).2.world with files := f (turn.next other k).2.world.files } }
    exact ⟨hnext.still, hnext.output⟩

/-! ### Programs that read nothing -/

omit [DecidableEq P] in
/-- A program that calls `read` on no way through it, whatever the answers to
its other calls. -/
def Program.Deaf : Program P → Prop
  | .stop _ => True
  | .read _ _ _ => False
  | .write _ _ next => ∀ written, (next written).Deaf
  | .change _ next => ∀ files, (next files).Deaf

/-- Only `read` takes anything from the terminal.  Writing shows something, or
changes a file. -/
theorem Kernel.write_input (k : Kernel P) (t : FdTable ℕ) (fd : ℕ) (bytes : List UInt8) :
    (k.write t fd bytes).2.world.input = k.world.input := by
  unfold Kernel.write
  split
  · rfl
  · split
    · rfl
    · rename_i s _
      cases s <;> rfl

/-- Opening a file takes nothing from what was typed. -/
theorem Kernel.openFile_input {Dir : Type*} (k : Kernel P) (names : Names Dir P) (flags : Flags)
    (dir : Dir) (name : List UInt8) (t : FdTable ℕ) :
    (k.openFile names flags dir name t).2.2.world.input = k.world.input := by
  unfold Kernel.openFile
  split <;> rfl

section deaf

variable {other : Kernel P → Kernel P}
  (hother : ∀ k : Kernel P, (other k).world.input = k.world.input)

include hother

omit [DecidableEq P] in
/-- Nor does the other process when it is its turn. -/
theorem Turn.next_input (turn : Turn) (k : Kernel P) :
    (turn.next other k).2.world.input = k.world.input := by
  match turn with
  | none | some (n + 1) => rfl
  | some 0 => exact hother k

omit [DecidableEq P] in
/-- Nor behind all calls of the program. -/
theorem Turn.last_input (turn : Turn) (k : Kernel P) :
    (turn.last other k).world.input = k.world.input := by
  match turn with
  | none => rfl
  | some n => exact hother k

/-- **A program that reads nothing leaves what was typed,** if the process
beside it does. -/
theorem Program.Deaf.exec_input {program : Program P} (h : program.Deaf) (turn : Turn)
    (t : FdTable ℕ) (k : Kernel P) :
    (program.exec other turn t k).2.world.input = k.world.input := by
  induction program generalizing turn k with
  | stop status => exact turn.last_input hother k
  | read fd n next ih => exact h.elim
  | write fd bytes next ih =>
    exact (ih _ (h _) _ _).trans ((Kernel.write_input _ t fd bytes).trans (turn.next_input hother k))
  | change f next ih => exact (ih _ (h _) _ _).trans (turn.next_input hother k)

end deaf

end stands

end Unix
end OSNetWorkCode
