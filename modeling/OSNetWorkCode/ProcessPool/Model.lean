/-
# The process pool

`1119/processPool/ProcessPool.hpp` and `Task.hpp`.  `StartThePool` makes a pipe
and forks a child, `num` times (`PROCESS_NUM`); the child keeps the read end,
the parent the write end, under `slots`.  Then the parent picks a slot and a
command and writes the command's four bytes into the slot's pipe, for ever; a
child reads four bytes, runs the handler of that number and reads again, until
its read returns 0.  Behind the parent's loop, which has no exit, stands the
code that closes every slot and then waits for every child; it is run on its
own by `shutdown`.

Processes share nothing but the pipes.  `fork` copies the table of descriptors
as it is, so that child `i` has the write ends of the pipes before its own as
well.  A pipe is a queue of at most `cap` bytes.  A read takes at most four
bytes; from an empty pipe it waits while some process has the write end open,
and returns 0 otherwise.  A write of four bytes is atomic: it waits until they
fit; without a reader it kills the writer (SIGPIPE).  `pipe` and `fork` may
fail, the assertions on them abort the parent.  Pipes and children are numbered
in the order in which they are made, and a child's number is its pid.

The two texts on the screen, `showHandler` and `desc` with it, change nothing
here.
-/

import OSNetWorkCode.Lib.FdTable
import OSNetWorkCode.Lib.Transition
import OSNetWorkCode.Lib.Word
import Mathlib.Data.Int.Order.Basic
import Mathlib.Logic.Function.Basic

namespace OSNetWorkCode
namespace ProcessPool

/-! ### `Task.hpp` -/

/-- The functions that a command may stand for. -/
inductive Handler
  | readMySQL
  | execuleUrl
  | cal
  | save
  deriving DecidableEq

/-- `load`: the handlers are pushed onto `callbacks`. -/
def load (callbacks : List Handler) : List Handler :=
  callbacks ++ [.readMySQL] ++ [.execuleUrl] ++ [.cal] ++ [.save]

/-- `callbacks`, once `StartThePool` has called `load`. -/
def callbacks : List Handler := load []

/-- How many handlers there are. -/
def handlerSize : ℕ := callbacks.length

/-! ### Processes -/

/-- What a descriptor stands for: an end of a pipe, or one of the files that
were open before. -/
inductive End
  | other
  | read (pipe : ℕ)
  | write (pipe : ℕ)
  deriving DecidableEq

/-- What a child does, in order. -/
inductive Event
  | read (command : UInt32)
  | ran (h : Handler)
  /-- The branch for a command without a handler. -/
  | illegal (command : ℤ)
  deriving DecidableEq

/-- Where a child stands. -/
inductive ChildPc
  /-- Before `close(pipefd[1])`. -/
  | start
  /-- At the `read` of `__waitCommand`. -/
  | wait
  /-- `__waitCommand` has returned. -/
  | run (command : UInt32)
  /-- `quit` was set. -/
  | quit
  | exited
  /-- The assertion in `__waitCommand` has failed. -/
  | aborted
  deriving DecidableEq

/-- The process is no more. -/
def ChildPc.ended (pc : ChildPc) : Prop := pc = .exited ∨ pc = .aborted

/-- Whether a process is no more can be read off its place. -/
instance (pc : ChildPc) : Decidable pc.ended := inferInstanceAs (Decidable (_ ∨ _))

/-- A child, with the `pipefd` that it has from its parent. -/
structure Child where
  table : FdTable End
  pipefd : ℕ × ℕ
  pc : ChildPc

/-- Where the parent stands in `StartThePool`. -/
inductive ParentPc
  /-- At the head of the fork loop. -/
  | loop (i : ℕ)
  | fork (i : ℕ) (pipefd : ℕ × ℕ)
  /-- Behind `fork`, in the parent. -/
  | father (i id : ℕ) (pipefd : ℕ × ℕ)
  /-- In the loop that sends commands. -/
  | serve
  /-- At `close(slots[k].second)`. -/
  | closeSlot (k : ℕ)
  /-- At `waitpid(slots[k].first, nullptr, 0)`. -/
  | waitSlot (k : ℕ)
  | returned
  | aborted
  /-- By SIGPIPE. -/
  | killed
  deriving DecidableEq

/-- All processes and pipes, with what was sent and done. -/
structure State where
  parent : ParentPc
  /-- The parent's descriptors. -/
  table : FdTable End
  /-- `vector<pair<pid_t, int>> slots`. -/
  slots : List (ℕ × ℕ)
  children : ℕ → Child
  /-- How many children there are. -/
  forked : ℕ
  pipes : ℕ → List UInt8
  /-- How many pipes there are. -/
  piped : ℕ
  /-- What each child has done. -/
  log : ℕ → List Event
  /-- The slots and commands that the parent has sent to. -/
  sent : List (ℕ × UInt32)

namespace State

/-- Some process has this end open. -/
def Held (s : State) (e : End) : Prop :=
  s.table.Holds e ∨ ∃ j < s.forked, (s.children j).table.Holds e

/-- Whether an end is open somewhere can be computed. -/
instance (s : State) (e : End) : Decidable (s.Held e) := inferInstanceAs (Decidable (_ ∨ _))

/-- Child `j` is now `c`. -/
def setChild (s : State) (j : ℕ) (c : Child) : State :=
  { s with children := Function.update s.children j c }

/-- The parent is no more. -/
def dies (s : State) (pc : ParentPc) : State := { s with parent := pc, table := .empty }

end State

/-! ### The parent -/

/-- What the parent cannot know beforehand. -/
inductive Choice
  | go
  /-- `pipe` or `fork` fails. -/
  | fail
  /-- What `rand()` gives, reduced to a slot and a command. -/
  | send (choice : ℕ) (command : UInt32)

/-- `__sendAndWakeUp`: the result of `write` is not looked at. -/
def sendAndWakeUp (cap fd : ℕ) (command : UInt32) (s : State) : Option State :=
  match s.table.get fd with
  | some (.write p) =>
    if s.Held (.read p) then
      if (s.pipes p).length + 4 ≤ cap then
        some { s with pipes := Function.update s.pipes p (s.pipes p ++ Word.encode command) }
      else none
    else some (s.dies .killed)
  | _ => some s

/-- A step of the parent; `none` where it waits, or where the choice is none of
this place. -/
def parentStep (num cap : ℕ) (choice : Choice) (s : State) : Option State :=
  match s.parent, choice with
  | .loop i, .fail => if i < num then some (s.dies .aborted) else none
  | .loop i, .go =>
    if i < num then
      let table := s.table.openLowest (.read s.piped)
      some { s with
        parent := .fork i (s.table.lowest, table.lowest)
        table := table.openLowest (.write s.piped)
        piped := s.piped + 1 }
    else some { s with parent := .serve }
  | .fork _ _, .fail => some (s.dies .aborted)
  | .fork i pipefd, .go =>
    some { s.setChild s.forked ⟨s.table, pipefd, .start⟩ with
      parent := .father i s.forked pipefd
      forked := s.forked + 1 }
  | .father i id pipefd, .go =>
    some { s with
      parent := .loop (i + 1)
      table := s.table.close pipefd.1
      slots := s.slots ++ [(id, pipefd.2)] }
  | .serve, .send choice command =>
    match s.slots[choice]? with
    | some slot =>
      if command.toNat < handlerSize then
        sendAndWakeUp cap slot.2 command { s with sent := s.sent ++ [(choice, command)] }
      else none
    | none => none
  | .closeSlot k, .go =>
    match s.slots[k]? with
    | some slot => some { s with parent := .closeSlot (k + 1), table := s.table.close slot.2 }
    | none => some { s with parent := .waitSlot 0 }
  | .waitSlot k, .go =>
    match s.slots[k]? with
    | some slot =>
      if (s.children slot.1).pc.ended then some { s with parent := .waitSlot (k + 1) } else none
    | none => some { s with parent := .returned }
  | _, _ => none

/-! ### A child -/

/-- What the child does with the command, as the `int` it has become. -/
def dispatch (command : UInt32) : Event :=
  let command := Word.toInt command
  if 0 ≤ command ∧ command < handlerSize then
    match callbacks[command.toNat]? with
    | some h => .ran h
    | none => .illegal command
  else .illegal command

/-- `__waitCommand` in child `j`. -/
def waitCommand (s : State) (j : ℕ) : Option State :=
  let c := s.children j
  match c.table.get c.pipefd.1 with
  | some (.read p) =>
    let bytes := (s.pipes p).take 4
    if bytes = [] then
      if s.Held (.write p) then none else some (s.setChild j { c with pc := .quit })
    else
      let s := { s with pipes := Function.update s.pipes p ((s.pipes p).drop 4) }
      if bytes.length = 4 then
        some { s.setChild j { c with pc := .run (Word.decode bytes) } with
          log := Function.update s.log j (s.log j ++ [.read (Word.decode bytes)]) }
      else some (s.setChild j { c with table := .empty, pc := .aborted })
  -- nothing to read from: `read` returns -1
  | _ => some (s.setChild j { c with table := .empty, pc := .aborted })

/-- A step of child `j`. -/
def childStep (s : State) (j : ℕ) : Option State :=
  let c := s.children j
  match c.pc with
  | .start => some (s.setChild j { c with table := c.table.close c.pipefd.2, pc := .wait })
  | .wait => waitCommand s j
  | .run command =>
    some { s.setChild j { c with pc := .wait } with
      log := Function.update s.log j (s.log j ++ [dispatch command]) }
  | .quit => some (s.setChild j { c with table := .empty, pc := .exited })
  | .exited | .aborted => none

/-! ### The system -/

/-- A step of some process. -/
inductive Step (num cap : ℕ) (s s' : State) : Prop
  | parent (choice : Choice) (h : parentStep num cap choice s = some s')
  | child (j : ℕ) (hj : j < s.forked) (h : childStep s j = some s')

/-- Nothing is forked; the descriptors 0, 1 and 2 are open. -/
def State.new : State where
  parent := .loop 0
  table := [some .other, some .other, some .other]
  slots := []
  children := fun _ => ⟨.empty, (0, 0), .start⟩
  forked := 0
  pipes := fun _ => []
  piped := 0
  log := fun _ => []
  sent := []

/-- The runs of the pool. -/
def sys (num cap : ℕ) : System State where
  init s := s = .new
  step := Step num cap

/-- The runs of the closing code, from any state in which the pool may be
serving. -/
def shutdown (num cap : ℕ) : System State where
  init s := ∃ s₀, (sys num cap).Reachable s₀ ∧ s₀.parent = .serve ∧
    s = { s₀ with parent := .closeSlot 0 }
  step := Step num cap

/-! ### Runs that are given step by step -/

/-- Whose turn it is. -/
inductive Move
  | parent (choice : Choice)
  | child (j : ℕ)

/-- The state after a list of moves, if each can be made. -/
def replay (num cap : ℕ) : List Move → State → Option State
  | [], s => some s
  | .parent choice :: ms, s => (parentStep num cap choice s).bind (replay num cap ms)
  | .child j :: ms, s => if j < s.forked then (childStep s j).bind (replay num cap ms) else none

/-- What a list of moves leads to is reachable, in any system with these steps.
The examples of runs below are given by such lists. -/
theorem replay_reachable {num cap : ℕ} {A : System State} (hA : A.step = Step num cap)
    (ms : List Move) {s s' : State} (hs : A.Reachable s) (h : replay num cap ms s = some s') :
    A.Reachable s' := by
  induction ms generalizing s with
  | nil =>
    obtain rfl := Option.some.inj h
    exact hs
  | cons m ms ih =>
    cases m with
    | parent choice =>
      obtain ⟨s₁, h₁, h₂⟩ := Option.bind_eq_some_iff.1 h
      exact ih (.step hs (by rw [hA]; exact .parent choice h₁)) h₂
    | child j =>
      unfold replay at h
      split_ifs at h with hj
      obtain ⟨s₁, h₁, h₂⟩ := Option.bind_eq_some_iff.1 h
      exact ih (.step hs (by rw [hA]; exact .child j hj h₁)) h₂

/-! ### What a step does -/

/-- The steps of the parent. -/
inductive ParentStep (num cap : ℕ) (s : State) : State → Prop
  | abort (hpc : (∃ i, s.parent = .loop i) ∨ ∃ i pipefd, s.parent = .fork i pipefd) :
    ParentStep num cap s (s.dies .aborted)
  | pipe {i : ℕ} (hpc : s.parent = .loop i) (hi : i < num) :
    ParentStep num cap s { s with
      parent := .fork i (s.table.lowest, (s.table.openLowest (.read s.piped)).lowest)
      table := (s.table.openLowest (.read s.piped)).openLowest (.write s.piped)
      piped := s.piped + 1 }
  | forked {i : ℕ} (hpc : s.parent = .loop i) (hi : num ≤ i) :
    ParentStep num cap s { s with parent := .serve }
  | fork {i : ℕ} {pipefd : ℕ × ℕ} (hpc : s.parent = .fork i pipefd) :
    ParentStep num cap s { s.setChild s.forked ⟨s.table, pipefd, .start⟩ with
      parent := .father i s.forked pipefd
      forked := s.forked + 1 }
  | father {i id : ℕ} {pipefd : ℕ × ℕ} (hpc : s.parent = .father i id pipefd) :
    ParentStep num cap s { s with
      parent := .loop (i + 1)
      table := s.table.close pipefd.1
      slots := s.slots ++ [(id, pipefd.2)] }
  | send {choice pid fd : ℕ} {command : UInt32} {s' : State} (hpc : s.parent = .serve)
    (hslot : s.slots[choice]? = some (pid, fd)) (hc : command.toNat < handlerSize)
    (hs : sendAndWakeUp cap fd command { s with sent := s.sent ++ [(choice, command)] } = some s') :
    ParentStep num cap s s'
  | closeSlot {k pid fd : ℕ} (hpc : s.parent = .closeSlot k)
    (hslot : s.slots[k]? = some (pid, fd)) :
    ParentStep num cap s { s with parent := .closeSlot (k + 1), table := s.table.close fd }
  | closed {k : ℕ} (hpc : s.parent = .closeSlot k) (hk : s.slots.length ≤ k) :
    ParentStep num cap s { s with parent := .waitSlot 0 }
  | waitSlot {k pid fd : ℕ} (hpc : s.parent = .waitSlot k) (hslot : s.slots[k]? = some (pid, fd))
    (hend : (s.children pid).pc.ended) :
    ParentStep num cap s { s with parent := .waitSlot (k + 1) }
  | waited {k : ℕ} (hpc : s.parent = .waitSlot k) (hk : s.slots.length ≤ k) :
    ParentStep num cap s { s with parent := .returned }

/-- The steps of child `j`. -/
inductive ChildStep (s : State) (j : ℕ) : State → Prop
  | start (hpc : (s.children j).pc = .start) :
    ChildStep s j (s.setChild j { s.children j with
      table := (s.children j).table.close (s.children j).pipefd.2, pc := .wait })
  | eof {p : ℕ} (hpc : (s.children j).pc = .wait)
    (hfd : (s.children j).table.get (s.children j).pipefd.1 = some (.read p))
    (hempty : s.pipes p = []) (hheld : ¬s.Held (.write p)) :
    ChildStep s j (s.setChild j { s.children j with pc := .quit })
  | read {p : ℕ} (hpc : (s.children j).pc = .wait)
    (hfd : (s.children j).table.get (s.children j).pipefd.1 = some (.read p))
    (hfour : 4 ≤ (s.pipes p).length) :
    ChildStep s j { s.setChild j { s.children j with pc := .run (Word.decode (s.pipes p)) } with
      pipes := Function.update s.pipes p ((s.pipes p).drop 4)
      log := Function.update s.log j (s.log j ++ [.read (Word.decode (s.pipes p))]) }
  | short {p : ℕ} (hpc : (s.children j).pc = .wait)
    (hfd : (s.children j).table.get (s.children j).pipefd.1 = some (.read p))
    (hpos : s.pipes p ≠ []) (hshort : (s.pipes p).length < 4) :
    ChildStep s j { s.setChild j { s.children j with table := .empty, pc := .aborted } with
      pipes := Function.update s.pipes p ((s.pipes p).drop 4) }
  | bad (hpc : (s.children j).pc = .wait)
    (hfd : ∀ p, (s.children j).table.get (s.children j).pipefd.1 ≠ some (.read p)) :
    ChildStep s j (s.setChild j { s.children j with table := .empty, pc := .aborted })
  | run {command : UInt32} (hpc : (s.children j).pc = .run command) :
    ChildStep s j { s.setChild j { s.children j with pc := .wait } with
      log := Function.update s.log j (s.log j ++ [dispatch command]) }
  | quit (hpc : (s.children j).pc = .quit) :
    ChildStep s j (s.setChild j { s.children j with table := .empty, pc := .exited })

variable {num cap : ℕ} {s s' : State}

/-- What the parent's step makes is one of its steps.  The invariants are
carried through these, and not through `parentStep`. -/
theorem parentStep_cases {choice : Choice} (h : parentStep num cap choice s = some s') :
    ParentStep num cap s s' := by
  unfold parentStep at h
  split at h
  · split_ifs at h
    obtain rfl := Option.some.inj h
    exact .abort (.inl ⟨_, by assumption⟩)
  · split_ifs at h with hi
    · obtain rfl := Option.some.inj h
      exact .pipe (by assumption) hi
    · obtain rfl := Option.some.inj h
      exact .forked (by assumption) (Nat.le_of_not_lt hi)
  · obtain rfl := Option.some.inj h
    exact .abort (.inr ⟨_, _, by assumption⟩)
  · obtain rfl := Option.some.inj h
    exact .fork (by assumption)
  · obtain rfl := Option.some.inj h
    exact .father (by assumption)
  · split at h
    · split_ifs at h with hc
      exact .send (by assumption) (by assumption) hc h
    · cases h
  · split at h
    · obtain rfl := Option.some.inj h
      exact .closeSlot (by assumption) (by assumption)
    · obtain rfl := Option.some.inj h
      exact .closed (by assumption) (List.getElem?_eq_none_iff.1 (by assumption))
  · split at h
    · split_ifs at h with hend
      obtain rfl := Option.some.inj h
      exact .waitSlot (by assumption) (by assumption) hend
    · obtain rfl := Option.some.inj h
      exact .waited (by assumption) (List.getElem?_eq_none_iff.1 (by assumption))
  · cases h

/-- What `__waitCommand` makes is one of a child's steps: the end of the file,
a whole command, a part of one, or a descriptor that is none. -/
theorem waitCommand_cases {j : ℕ} (hpc : (s.children j).pc = .wait)
    (h : waitCommand s j = some s') : ChildStep s j s' := by
  unfold waitCommand at h
  simp only at h
  split at h
  · rename_i p hfd
    split_ifs at h with hempty hheld hfour
    · obtain rfl := Option.some.inj h
      have hnil : s.pipes p = [] := by simpa using hempty
      exact .eof hpc hfd hnil hheld
    · obtain rfl := Option.some.inj h
      have hlen : 4 ≤ (s.pipes p).length := by
        rw [List.length_take] at hfour
        omega
      rw [Word.decode_take_four]
      exact .read hpc hfd hlen
    · obtain rfl := Option.some.inj h
      have hpos : s.pipes p ≠ [] := by
        intro hnil
        exact hempty (by rw [hnil]; rfl)
      have hlen : (s.pipes p).length < 4 := by
        rw [List.length_take] at hfour
        omega
      exact .short hpc hfd hpos hlen
  · rename_i hfd
    obtain rfl := Option.some.inj h
    exact .bad hpc hfd

/-- What a child's step makes is one of its steps.  The rest of the state stays
as it is (`ChildStep.frame`). -/
theorem childStep_cases {j : ℕ} (h : childStep s j = some s') : ChildStep s j s' := by
  unfold childStep at h
  simp only at h
  split at h
  · obtain rfl := Option.some.inj h
    exact .start (by assumption)
  · exact waitCommand_cases (by assumption) h
  · obtain rfl := Option.some.inj h
    exact .run (by assumption)
  · obtain rfl := Option.some.inj h
    exact .quit (by assumption)
  · cases h
  · cases h

/-- **A child's step leaves the parent and the other children alone.**  What it
shares with them are the pipes. -/
theorem ChildStep.frame {j : ℕ} (h : ChildStep s j s') :
    s'.parent = s.parent ∧ s'.table = s.table ∧ s'.slots = s.slots ∧ s'.forked = s.forked ∧
      s'.piped = s.piped ∧ s'.sent = s.sent ∧ ∀ k ≠ j, s'.children k = s.children k ∧
        s'.log k = s.log k := by
  cases h <;> refine ⟨rfl, rfl, rfl, rfl, rfl, rfl, fun k hk => ⟨Function.update_of_ne hk _ _, ?_⟩⟩
  case read => exact Function.update_of_ne hk _ _
  case run => exact Function.update_of_ne hk _ _
  all_goals rfl

/-- What `__sendAndWakeUp` does to the state: the command goes into the pipe,
or SIGPIPE kills the parent, or the descriptor is no write end and nothing is
written. -/
theorem sendAndWakeUp_cases {fd : ℕ} {command : UInt32}
    (h : sendAndWakeUp cap fd command s = some s') :
    (∃ p, s.table.get fd = some (.write p) ∧ s.Held (.read p) ∧
      s' = { s with pipes := Function.update s.pipes p (s.pipes p ++ Word.encode command) }) ∨
    (∃ p, s.table.get fd = some (.write p) ∧ ¬s.Held (.read p) ∧ s' = s.dies .killed) ∨
    ((∀ p, s.table.get fd ≠ some (.write p)) ∧ s' = s) := by
  unfold sendAndWakeUp at h
  split at h
  · rename_i p hfd
    split_ifs at h with hheld
    · exact .inl ⟨p, hfd, hheld, (Option.some.inj h).symm⟩
    · exact .inr (.inl ⟨p, hfd, hheld, (Option.some.inj h).symm⟩)
  · rename_i hfd
    exact .inr (.inr ⟨hfd, (Option.some.inj h).symm⟩)

/-- A command with a handler runs it, and is not illegal. -/
theorem dispatch_eq {command : UInt32} (h : command.toNat < handlerSize) :
    ∃ handler, callbacks[command.toNat]? = some handler ∧ dispatch command = .ran handler := by
  have hsize : handlerSize = 4 := rfl
  have hint : Word.toInt command = command.toNat := Word.toInt_of_lt (by omega)
  obtain ⟨handler, hget⟩ : ∃ handler, callbacks[command.toNat]? = some handler :=
    ⟨_, List.getElem?_eq_getElem h⟩
  refine ⟨handler, hget, ?_⟩
  unfold dispatch
  simp only [hint, Int.toNat_natCast, hget]
  exact if_pos ⟨Int.natCast_nonneg _, by omega⟩

end ProcessPool
end OSNetWorkCode
