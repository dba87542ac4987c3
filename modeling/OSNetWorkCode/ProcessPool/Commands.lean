/-
# A command reaches its worker, once, in order, and no other

What has gone through a slot is, in order, what the child behind it has read
and then what is still in its pipe (`Flow.pipe`).  It holds because the
descriptor under a slot is a write end of the slot's own pipe, of which the
child of that number is the only reader (`Ends`).  So a pipe holds whole
commands, each with a handler: a read gives four bytes, the assertion on it
holds, and no command is illegal.

`Flow.done` is what makes the parent's write safe: a child ends only after
nobody had a write end of its pipe, and nobody gets one back, so while a slot
is open its child has the read end and the write does not kill the parent.
-/

import OSNetWorkCode.ProcessPool.Descriptors

namespace OSNetWorkCode
namespace ProcessPool

/-- The commands that a child has read. -/
def reads (log : List Event) : List UInt32 :=
  log.filterMap fun
    | .read command => some command
    | _ => none

/-- The commands sent through slot `i`. -/
def sentTo (i : ℕ) (sent : List (ℕ × UInt32)) : List UInt32 :=
  (sent.filter (·.1 = i)).map Prod.snd

/-- A command is read, then what it stands for is done. -/
def round (command : UInt32) : List Event := [.read command, dispatch command]

/-- The command that is read and not yet run. -/
def ChildPc.current : ChildPc → List Event
  | .run command => [.read command]
  | _ => []

/-- What is read comes behind what was read before. -/
@[simp] theorem reads_append (l l' : List Event) : reads (l ++ l') = reads l ++ reads l' :=
  List.filterMap_append

/-- To run a command is not to read one, so what was read can be counted in the
log. -/
theorem dispatch_ne_read (c command : UInt32) : dispatch c ≠ .read command := by
  unfold dispatch
  simp only
  split_ifs
  · split <;> nofun
  · nofun

/-- Running a command reads none. -/
@[simp] theorem reads_dispatch (c : UInt32) : reads [dispatch c] = [] := by
  cases h : dispatch c with
  | read command => exact absurd h (dispatch_ne_read c command)
  | _ => rfl

/-- A round reads one command. -/
theorem reads_round (c : UInt32) : reads (round c) = [c] := by
  show reads ([.read c] ++ [dispatch c]) = [c]
  rw [reads_append, reads_dispatch]
  rfl

/-- The rounds of a child read the commands they are about. -/
@[simp] theorem reads_rounds (cs : List UInt32) : reads (cs.flatMap round) = cs := by
  induction cs with
  | nil => rfl
  | cons c cs ih => rw [List.flatMap_cons, reads_append, reads_round, ih, List.singleton_append]

/-- A command more is sent, through one slot. -/
theorem sentTo_append (i choice : ℕ) (command : UInt32) (sent : List (ℕ × UInt32)) :
    sentTo i (sent ++ [(choice, command)]) =
      sentTo i sent ++ if choice = i then [command] else [] := by
  unfold sentTo
  by_cases h : choice = i
  · simp [h]
  · simp [h]

/-- Whole commands are as long as they should be: four bytes each. -/
theorem length_flatMap_encode (cs : List UInt32) :
    (cs.flatMap Word.encode).length = 4 * cs.length := by
  induction cs with
  | nil => rfl
  | cons c cs ih =>
    rw [List.flatMap_cons, List.length_append, ih, Word.length_encode, List.length_cons]
    omega

/-- What the commands come to. -/
structure Flow (s : State) : Prop where
  /-- Every command sent has a handler. -/
  sent : ∀ x ∈ s.sent, x.2.toNat < handlerSize
  /-- A pipe holds the commands that its child has not read. -/
  pipe : ∀ i, ∃ rest : List UInt32, s.pipes i = rest.flatMap Word.encode ∧
    reads (s.log i) ++ rest = sentTo i s.sent
  /-- A child runs each command before it reads the next. -/
  log : ∀ j < s.forked, ∃ cs : List UInt32, s.log j = cs.flatMap round ++ (s.children j).pc.current
  unborn : ∀ j, s.forked ≤ j → s.log j = []
  /-- A child that has left its loop has no writer. -/
  done : ∀ j < s.forked, (s.children j).pc = .quit ∨ (s.children j).pc = .exited →
    ¬s.Held (.write j)
  asserted : ∀ j < s.forked, (s.children j).pc ≠ .aborted
  alive : s.parent ≠ .killed

section flow

variable {num cap : ℕ} {s s' : State}

/-- **While a slot is open, its child can read.**  It ends only where nobody
has a write end of its pipe. -/
theorem Flow.held_read (h : Flow s) (he : Ends num s) {i : ℕ} (hi : i < s.forked)
    (hw : s.Held (.write i)) : s.Held (.read i) := by
  refine .inr ⟨i, hi, (s.children i).pipefd.1, ((he.child i hi).read _ _).2 ⟨?_, rfl, rfl⟩⟩
  rintro (hpc | hpc)
  · exact h.done i hi (.inr hpc) hw
  · exact h.asserted i hi hpc

/-- A step that leaves pipes, children and what was sent alone keeps what the
commands come to.  Of the parent's steps all but `fork` and the sending of a
command are of this kind. -/
theorem Flow.goes (h : Flow s) (hsent : s'.sent = s.sent) (hpipes : s'.pipes = s.pipes)
    (hlog : s'.log = s.log) (hforked : s'.forked = s.forked) (hchildren : s'.children = s.children)
    (hheld : ∀ j < s.forked, s'.Held (.write j) → s.Held (.write j))
    (halive : s'.parent ≠ .killed) :
    Flow s' where
  sent := by rw [hsent]; exact h.sent
  pipe := by rw [hpipes, hlog, hsent]; exact h.pipe
  log := by rw [hforked, hlog, hchildren]; exact h.log
  unborn := by rw [hforked, hlog]; exact h.unborn
  done j hj hpc hw := by
    rw [hforked] at hj
    rw [hchildren] at hpc
    exact h.done j hj hpc (hheld j hj hw)
  asserted := by rw [hforked, hchildren]; exact h.asserted
  alive := halive

/-- **A command goes into the pipe of the slot that was picked.**  The child of
that pipe can read, so that the parent is not killed by it. -/
theorem Flow.send (h : Flow s) (he : Ends num s) (hpc : s.parent = .serve) {choice pid fd : ℕ}
    {command : UInt32} (hslot : s.slots[choice]? = some (pid, fd))
    (hc : command.toNat < handlerSize)
    (hs : sendAndWakeUp cap fd command { s with sent := s.sent ++ [(choice, command)] } = some s') :
    Flow s' := by
  obtain rfl := he.slot choice pid fd hslot
  have hclosed : s.closed = 0 := by unfold State.closed; rw [hpc]
  have hfd : s.table.get fd = some (.write pid) :=
    (he.parent.write _ _).2 (.inl ⟨by rw [hclosed]; exact Nat.zero_le _, hslot⟩)
  have hpid : pid < s.forked := by
    obtain ⟨hslots, hforked, -⟩ := he.counts_serve hpc
    obtain ⟨hlt, -⟩ := List.getElem?_eq_some_iff.1 hslot
    omega
  have hheld : s.Held (.read pid) := h.held_read he hpid (.inl ⟨fd, hfd⟩)
  rcases sendAndWakeUp_cases hs with ⟨p, hp, -, rfl⟩ | ⟨p, hp, hnot, -⟩ | ⟨hnot, -⟩
  · have hpp : some (End.write pid) = some (.write p) := hfd.symm.trans hp
    cases hpp
    refine ⟨?_, fun i => ?_, h.log, h.unborn, h.done, h.asserted, h.alive⟩
    · intro x hx
      rcases List.mem_append.1 hx with hx | hx
      · exact h.sent x hx
      · obtain rfl := List.mem_singleton.1 hx
        exact hc
    · obtain ⟨rest, hpipe, hrest⟩ := h.pipe i
      show ∃ rest : List UInt32, Function.update s.pipes pid _ i = _ ∧ reads (s.log i) ++ rest = _
      rw [sentTo_append, ← hrest]
      by_cases hi : i = pid
      · subst hi
        refine ⟨rest ++ [command], ?_, ?_⟩
        · rw [Function.update_self, hpipe, List.flatMap_append, List.flatMap_singleton]
        · rw [if_pos rfl, List.append_assoc]
      · refine ⟨rest, ?_, ?_⟩
        · rw [Function.update_of_ne hi, hpipe]
        · rw [if_neg (Ne.symm hi), List.append_nil]
  · have hpp : some (End.write pid) = some (.write p) := hfd.symm.trans hp
    cases hpp
    exact absurd hheld hnot
  · exact absurd hfd (hnot pid)

/-- A step of the parent keeps what the commands come to.  A new child begins
with its pipe empty and nothing sent to it. -/
theorem Flow.parentStep (h : Flow s) (he : Ends num s) (hstep : ParentStep num cap s s') :
    Flow s' := by
  have hheld : ∀ j < s.forked, s'.Held (.write j) → s.Held (.write j) := fun j hj =>
    hstep.held_write (Nat.lt_of_lt_of_le hj he.counts.forked_le_piped)
  cases hstep with
  | fork hpc =>
    refine ⟨h.sent, h.pipe, ?_, fun j hj => h.unborn j (Nat.le_of_succ_le hj), ?_, ?_, nofun⟩
    · exact FdTable.forall_forked
        (P := fun j (x : Child) =>
          ∃ cs : List UInt32, s.log j = cs.flatMap round ++ x.pc.current) h.log
        ⟨[], h.unborn _ (Nat.le_refl _)⟩
    · refine FdTable.forall_forked
        (P := fun j (x : Child) => x.pc = .quit ∨ x.pc = .exited → ¬State.Held _ (.write j)) ?_ ?_
      · intro j hj hdone hw
        exact h.done j hj hdone (hheld j hj hw)
      · rintro (hpc | hpc) <;> cases hpc
    · exact FdTable.forall_forked (P := fun _ (x : Child) => x.pc ≠ .aborted) h.asserted nofun
  | send hpc hslot hc hs => exact h.send he hpc hslot hc hs
  | abort | pipe | forked | father | closeSlot | closed | waitSlot | waited =>
    exact h.goes rfl rfl rfl rfl rfl hheld nofun

/-- What the invariant says about child `j` alone: its log, its end and its
assertion.  The steps of a child change these and nothing of the other
children, so this is all that has to be shown of them. -/
theorem Flow.setChild (h : Flow s) {j : ℕ} (hj : j < s.forked) {c : Child}
    (hforked : s'.forked = s.forked) (hchildren : s'.children = Function.update s.children j c)
    (hsent : s'.sent = s.sent) (hparent : s'.parent = s.parent)
    (hother : ∀ k ≠ j, s'.pipes k = s.pipes k ∧ s'.log k = s.log k)
    (hheld : ∀ k, s'.Held (.write k) → s.Held (.write k))
    (hpipe : ∃ rest : List UInt32, s'.pipes j = rest.flatMap Word.encode ∧
      reads (s'.log j) ++ rest = sentTo j s.sent)
    (hlog : ∃ cs : List UInt32, s'.log j = cs.flatMap round ++ c.pc.current)
    (hdone : c.pc = .quit ∨ c.pc = .exited → ¬s.Held (.write j)) (hassert : c.pc ≠ .aborted) :
    Flow s' where
  sent := by rw [hsent]; exact h.sent
  pipe i := by
    rw [hsent]
    by_cases hi : i = j
    · subst hi
      exact hpipe
    · rw [(hother i hi).1, (hother i hi).2]
      exact h.pipe i
  log := by
    rw [hforked, hchildren]
    refine FdTable.forall_children
      (P := fun k (x : Child) =>
        ∃ cs : List UInt32, s'.log k = cs.flatMap round ++ x.pc.current) ?_ hlog
    intro k hk hkj
    rw [(hother k hkj).2]
    exact h.log k hk
  unborn k hk := by
    rw [hforked] at hk
    rw [(hother k (by omega)).2]
    exact h.unborn k hk
  done := by
    rw [hforked, hchildren]
    refine FdTable.forall_children
      (P := fun k (x : Child) => x.pc = .quit ∨ x.pc = .exited → ¬s'.Held (.write k)) ?_ ?_
    · intro k hk _ hpc hw
      exact h.done k hk hpc (hheld k hw)
    · intro hpc hw
      exact hdone hpc (hheld j hw)
  asserted := by
    rw [hforked, hchildren]
    exact FdTable.forall_children (P := fun _ (x : Child) => x.pc ≠ .aborted)
      (fun k hk _ => h.asserted k hk) hassert
  alive := by rw [hparent]; exact h.alive

/-- A step of a child keeps what the commands come to.  Its pipe holds whole
commands, so that a read of four bytes takes just one. -/
theorem Flow.childStep {j : ℕ} (h : Flow s) (he : Ends num s) (hj : j < s.forked)
    (hstep : ChildStep s j s') : Flow s' := by
  have hheld : ∀ k, s'.Held (.write k) → s.Held (.write k) := fun k => hstep.held
  have hown : ∀ {p}, (s.children j).table.get (s.children j).pipefd.1 = some (.read p) → j = p :=
    fun hfd => (((he.child j hj).read _ _).1 hfd).2.1.symm
  obtain ⟨cs, hcs⟩ := h.log j hj
  cases hstep with
  | start hpc =>
    rw [hpc] at hcs
    exact h.setChild hj rfl rfl rfl rfl (fun _ _ => ⟨rfl, rfl⟩) hheld (h.pipe j) ⟨cs, hcs⟩
      (by rintro (h | h) <;> cases h) nofun
  | eof hpc hfd _ hnot =>
    rw [hpc] at hcs
    obtain rfl := hown hfd
    exact h.setChild hj rfl rfl rfl rfl (fun _ _ => ⟨rfl, rfl⟩) hheld (h.pipe _) ⟨cs, hcs⟩
      (fun _ => hnot) nofun
  | read hpc hfd hfour =>
    rw [hpc] at hcs
    obtain rfl := hown hfd
    obtain ⟨rest, hpipe, hrest⟩ := h.pipe j
    -- four bytes are there, so a command is
    cases rest with
    | nil =>
      rw [hpipe] at hfour
      exact absurd hfour (by decide)
    | cons command rest =>
      have hdecode : Word.decode (s.pipes j) = command := by
        rw [hpipe, List.flatMap_cons, Word.decode_encode]
      have hdrop : (s.pipes j).drop 4 = rest.flatMap Word.encode := by
        rw [hpipe, List.flatMap_cons]
        rfl
      refine h.setChild hj rfl rfl rfl rfl ?_ hheld ⟨rest, ?_, ?_⟩ ⟨cs, ?_⟩
        (by rintro (h | h) <;> cases h) nofun
      · intro k hk
        exact ⟨Function.update_of_ne hk _ _, Function.update_of_ne hk _ _⟩
      · exact (Function.update_self ..).trans hdrop
      · show reads (Function.update s.log j _ j) ++ rest = _
        rw [Function.update_self, hdecode, reads_append, List.append_assoc]
        exact hrest
      · show Function.update s.log j _ j = _
        rw [Function.update_self, hcs]
        simp [ChildPc.current]
  | short hpc hfd hpos hshort =>
    obtain rfl := hown hfd
    obtain ⟨rest, hpipe, -⟩ := h.pipe j
    rw [hpipe] at hpos
    rw [hpipe, length_flatMap_encode] at hshort
    have hnil : rest = [] := List.length_eq_zero_iff.1 (by omega)
    exact absurd (by rw [hnil]; rfl) hpos
  | bad hpc hfd =>
    refine absurd (((he.child j hj).read _ _).2 ⟨?_, rfl, rfl⟩) (hfd j)
    rw [hpc]
    decide
  | @run command hpc =>
    rw [hpc] at hcs
    obtain ⟨rest, hpipe, hrest⟩ := h.pipe j
    refine h.setChild hj rfl rfl rfl rfl (fun k hk => ⟨rfl, Function.update_of_ne hk _ _⟩) hheld
      ⟨rest, hpipe, ?_⟩ ⟨cs ++ [command], ?_⟩ (by rintro (h | h) <;> cases h) nofun
    · show reads (Function.update s.log j _ j) ++ rest = _
      rw [Function.update_self, reads_append, reads_dispatch, List.append_nil]
      exact hrest
    · show Function.update s.log j _ j = _
      rw [Function.update_self, hcs]
      simp [ChildPc.current, round]
  | quit hpc =>
    have hcs' := hcs
    rw [hpc] at hcs'
    exact h.setChild hj rfl rfl rfl rfl (fun _ _ => ⟨rfl, rfl⟩) hheld (h.pipe j) ⟨cs, hcs'⟩
      (fun _ => h.done j hj (.inl hpc)) nofun

/-- **What the commands come to is kept by every step.** -/
theorem Flow.step (h : Flow s) (he : Ends num s) (hstep : Step num cap s s') : Flow s' := by
  rcases hstep with ⟨choice, hp⟩ | ⟨j, hj, hc⟩
  · exact h.parentStep he (parentStep_cases hp)
  · exact h.childStep he hj (childStep_cases hc)

/-- Nothing is sent and nothing done at the start. -/
theorem Flow.new : Flow .new where
  sent := nofun
  pipe _ := ⟨[], rfl, rfl⟩
  log j hj := absurd hj (Nat.not_lt_zero j)
  unborn _ _ := rfl
  done j hj := absurd hj (Nat.not_lt_zero j)
  asserted j hj := absurd hj (Nat.not_lt_zero j)
  alive := nofun

/-- **Both invariants hold in every run of the pool.**  The second one needs
the first, which says where a write goes. -/
theorem sys_invariant (h : (sys num cap).Reachable s) : Ends num s ∧ Flow s := by
  refine System.Reachable.invariant (I := fun s => Ends num s ∧ Flow s) ?_ ?_ h
  · rintro s rfl
    exact ⟨.new, .new⟩
  · rintro s s' - ⟨he, hf⟩ hstep
    exact ⟨he.step hstep, hf.step he hstep⟩

/-- What a child reads was sent, and has a handler: commands are drawn from the
indices of the table. -/
theorem Flow.handler (h : Flow s) {i : ℕ} {command : UInt32} (hc : command ∈ reads (s.log i)) :
    ∃ handler, callbacks[command.toNat]? = some handler ∧ dispatch command = .ran handler := by
  obtain ⟨rest, -, hrest⟩ := h.pipe i
  have hmem : command ∈ sentTo i s.sent := by
    rw [← hrest]
    exact List.mem_append_left _ hc
  obtain ⟨x, hx, rfl⟩ := List.mem_map.1 hmem
  exact dispatch_eq (h.sent x (List.mem_filter.1 hx).1)

/-- **No child comes to the branch for an illegal command.**  It has read what
was sent to it, and every command sent is an index of the table of handlers. -/
theorem Flow.legal (h : Flow s) (i : ℕ) (command : ℤ) : .illegal command ∉ s.log i := by
  intro hill
  rcases Nat.lt_or_ge i s.forked with hi | hi
  · obtain ⟨cs, hcs⟩ := h.log i hi
    rw [hcs] at hill
    rcases List.mem_append.1 hill with hill | hill
    · obtain ⟨c, hc, hround⟩ := List.mem_flatMap.1 hill
      have hread : c ∈ reads (s.log i) := by
        rw [hcs, reads_append, reads_rounds]
        exact List.mem_append_left _ hc
      obtain ⟨handler, -, hran⟩ := h.handler hread
      have hdispatch : Event.illegal command = dispatch c := by simpa [round] using hround
      rw [hran] at hdispatch
      cases hdispatch
    · cases hpc : (s.children i).pc <;> rw [hpc] at hill <;> simp [ChildPc.current] at hill
  · rw [h.unborn i hi] at hill
    cases hill

end flow

/-- The commands sent are where they belong. -/
structure Delivered (num : ℕ) (s : State) : Prop where
  /-- The descriptor of a slot is a write end of the slot's pipe. -/
  slot : s.parent ≠ .aborted → ∀ i < s.slots.length, ∃ fd, s.slots[i]? = some (i, fd) ∧
    s.table.get fd = some (.write i)
  /-- Behind the fork loop, child `i` and nobody else has a read end of pipe `i`. -/
  reader : s.parent = .serve → s.forked = num ∧ s.slots.length = num ∧ ∀ i < num,
    ¬s.table.Holds (.read i) ∧ ∀ j < num, (s.children j).table.Holds (.read i) ↔ j = i
  /-- What child `i` has read and what is in its pipe is what was sent through slot `i`. -/
  fifo : ∀ i, ∃ rest : List UInt32, s.pipes i = rest.flatMap Word.encode ∧
    reads (s.log i) ++ rest = sentTo i s.sent
  /-- Each command is run once before the next is read. -/
  serial : ∀ i < s.forked, ∃ cs : List UInt32,
    s.log i = cs.flatMap round ++ (s.children i).pc.current
  handler : ∀ i, ∀ command ∈ reads (s.log i), ∃ handler,
    callbacks[command.toNat]? = some handler ∧ dispatch command = .ran handler
  asserted : ∀ i < s.forked, (s.children i).pc ≠ .aborted
  legal : ∀ i command, .illegal command ∉ s.log i

section reachable

variable {num cap : ℕ} {s : State}

/-- The parent is in the closing code. -/
def ParentPc.Closing : ParentPc → Prop
  | .closeSlot _ | .waitSlot _ | .returned => True
  | _ => False

/-- The closing code is entered from nowhere else: `ctrlProcess` is not left,
and what kills the parent does not bring it there. -/
theorem Step.closing {s' : State} (h : Step num cap s s') (hc : s'.parent.Closing) :
    s.parent.Closing := by
  rcases h with ⟨choice, hp⟩ | ⟨j, hj, hchild⟩
  · cases parentStep_cases hp with
    | abort | pipe | forked | fork | father => exact hc.elim
    | send hpc _ _ hs =>
      rcases (sendAndWakeUp_frame hs).1 with ⟨hparent, -⟩ | ⟨hparent, -⟩
      · rwa [hparent] at hc
      · rw [hparent] at hc
        exact hc.elim
    | closeSlot hpc | closed hpc | waitSlot hpc | waited hpc =>
      rw [hpc]
      trivial
  · rwa [(childStep_cases hchild).frame.1] at hc

/-- The pool itself does not reach it. -/
theorem not_closing (h : (sys num cap).Reachable s) : ¬s.parent.Closing := by
  refine System.Reachable.invariant (I := fun s => ¬s.parent.Closing) ?_ ?_ h
  · rintro s rfl
    exact id
  · intro s s' _ hs hstep hc
    exact hs (hstep.closing hc)

/-- **The slots of a parent that runs the pool are open,** each on the write
end of its own pipe. -/
theorem slot_open (h : (sys num cap).Reachable s) (halive : s.parent ≠ .aborted) {i : ℕ}
    (hi : i < s.slots.length) :
    ∃ fd, s.slots[i]? = some (i, fd) ∧ s.table.get fd = some (.write i) := by
  obtain ⟨he, hf⟩ := sys_invariant h
  have hclosed : s.closed = 0 := by
    have hnot := not_closing h
    unfold State.closed
    cases hpc : s.parent with
    | loop | fork | father | serve => rfl
    | closeSlot | waitSlot | returned => exact absurd (by rw [hpc]; trivial) hnot
    | aborted => exact absurd hpc halive
    | killed => exact absurd hpc hf.alive
  obtain ⟨⟨pid, fd⟩, hslot⟩ : ∃ slot, s.slots[i]? = some slot := ⟨_, List.getElem?_eq_getElem hi⟩
  obtain rfl := he.slot i pid fd hslot
  exact ⟨fd, hslot, (he.parent.write _ _).2 (.inl ⟨by rw [hclosed]; exact Nat.zero_le _, hslot⟩)⟩

/-- **Behind the fork loop pipe `i` has one reader, child `i`.**  The others
have write ends of it, which does no harm to the commands. -/
theorem one_reader (h : (sys num cap).Reachable s) (hpc : s.parent = .serve) :
    s.forked = num ∧ s.slots.length = num ∧ ∀ i < num,
      ¬s.table.Holds (.read i) ∧ ∀ j < num, (s.children j).table.Holds (.read i) ↔ j = i := by
  obtain ⟨he, hf⟩ := sys_invariant h
  obtain ⟨hslots, hforked, -⟩ := he.counts_serve hpc
  refine ⟨hforked, hslots, fun i hi => ⟨?_, fun j hj => ?_⟩⟩
  · rintro ⟨fd, hfd⟩
    obtain ⟨pipefd, hpipefd, -⟩ := (he.parent.read _ _).1 hfd
    rw [hpc] at hpipefd
    cases hpipefd
  · have hj' : j < s.forked := hforked ▸ hj
    constructor
    · rintro ⟨fd, hfd⟩
      exact (((he.child j hj').read _ _).1 hfd).2.1.symm
    · rintro rfl
      obtain ⟨fd, -, hw⟩ := slot_open h (by rw [hpc]; nofun) (hslots ▸ hj)
      refine ⟨_, ((he.child j hj').read _ _).2 ⟨?_, rfl, rfl⟩⟩
      rintro (hend | hend)
      · exact hf.done j hj' (.inr hend) (.inl ⟨fd, hw⟩)
      · exact hf.asserted j hj' hend

/-- **A command reaches its worker, once, in order, and no other.**  In every
reachable state of a pool of `num` children and pipes of any capacity: every
slot of the parent is a write end of its own pipe, of which the child of that
number is the one reader; what that child has read is, followed by what its
pipe still holds, what was sent through the slot; it has run each command
before reading the next; no read was short and no command illegal. -/
theorem command_reaches_worker (h : (sys num cap).Reachable s) : Delivered num s := by
  obtain ⟨-, hf⟩ := sys_invariant h
  exact ⟨fun halive i hi => slot_open h halive hi, one_reader h, hf.pipe, hf.log,
    fun i command => hf.handler, hf.asserted, hf.legal⟩

end reachable

/-- Two children are forked; two commands go to the second, which runs the
first of them. -/
def twoCommands : List Move :=
  [.parent .go, .parent .go, .parent .go, .parent .go, .parent .go, .parent .go, .parent .go,
    .parent (.send 1 2), .child 0, .child 1, .parent (.send 1 0), .child 1, .child 1]

/-- The second command is still in the pipe. -/
theorem command_reaches_worker_two : ∃ s, s.sent = [(1, 2), (1, 0)] ∧
    s.log 1 = [.read 2, .ran .cal] ∧ s.pipes 1 = Word.encode 0 ∧ Delivered 2 s := by
  obtain ⟨s, hs, hsent, hlog, hpipe⟩ : ∃ s, replay 2 8 twoCommands .new = some s ∧
      s.sent = [(1, 2), (1, 0)] ∧ s.log 1 = [.read 2, .ran .cal] ∧ s.pipes 1 = Word.encode 0 :=
    ⟨_, rfl, rfl, rfl, rfl⟩
  have hinit : (sys 2 8).Reachable .new := .init rfl
  exact ⟨s, hsent, hlog, hpipe, command_reaches_worker (replay_reachable rfl twoCommands hinit hs)⟩

end ProcessPool
end OSNetWorkCode
