/-
# Which process has which end of which pipe

The fork loop opens two descriptors a round, copies the table, and closes one
end on each side, so that numbers come back in the next round and every child
inherits what the parent has open at that moment.  `Ends` says what each table
comes to, at every place of every process: the parent has the write ends under
the slots that it has not closed, and both ends of a pipe while it makes the
child for it; child `j` has the read end of pipe `j` until it ends, the write
ends of the pipes before, under the parent's numbers, and its own write end
until its first step.

Each table is described by an equivalence, so that which numbers differ need
not be said: a number that were used twice would have two files open.

`Step.held_write` is the other half: nobody gets a write end of an old pipe who
finds none in any table.
-/

import OSNetWorkCode.ProcessPool.Model

namespace OSNetWorkCode
namespace ProcessPool

/-- The `pipefd` of the pipe whose child is being made. -/
def ParentPc.pipefd : ParentPc → Option (ℕ × ℕ)
  | .fork _ pipefd | .father _ _ pipefd => some pipefd
  | _ => none

/-- How many slots the parent has closed. -/
def State.closed (s : State) : ℕ :=
  match s.parent with
  | .loop _ | .fork _ _ | .father _ _ _ | .serve => 0
  | .closeSlot k => k
  | _ => s.slots.length

/-- How many slots, children and pipes there are. -/
def Counts (num : ℕ) (s : State) : Prop :=
  match s.parent with
  | .loop i => i ≤ num ∧ s.slots.length = i ∧ s.forked = i ∧ s.piped = i
  | .fork i _ => i < num ∧ s.slots.length = i ∧ s.forked = i ∧ s.piped = i + 1
  | .father i id _ => i < num ∧ id = i ∧ s.slots.length = i ∧ s.forked = i + 1 ∧ s.piped = i + 1
  | .aborted => s.slots.length ≤ num ∧ s.forked = s.slots.length ∧ s.forked ≤ s.piped
  | _ => s.slots.length = num ∧ s.forked = num ∧ s.piped = num

/-- What the parent has open. -/
structure ParentEnds (s : State) : Prop where
  read : ∀ fd p, s.table.get fd = some (.read p) ↔
    ∃ pipefd, s.parent.pipefd = some pipefd ∧ p = s.slots.length ∧ fd = pipefd.1
  write : ∀ fd p, s.table.get fd = some (.write p) ↔
    (s.closed ≤ p ∧ s.slots[p]? = some (p, fd)) ∨
      ∃ pipefd, s.parent.pipefd = some pipefd ∧ p = s.slots.length ∧ fd = pipefd.2

/-- What child `j` has open. -/
structure ChildEnds (slots : List (ℕ × ℕ)) (j : ℕ) (c : Child) : Prop where
  read : ∀ fd p, c.table.get fd = some (.read p) ↔ ¬c.pc.ended ∧ p = j ∧ fd = c.pipefd.1
  write : ∀ fd p, c.table.get fd = some (.write p) ↔
    ¬c.pc.ended ∧ ((p < j ∧ slots[p]? = some (p, fd)) ∨ (p = j ∧ c.pc = .start ∧ fd = c.pipefd.2))

/-- What every process has open. -/
structure Ends (num : ℕ) (s : State) : Prop where
  counts : Counts num s
  slot : ∀ k pid fd : ℕ, s.slots[k]? = some (pid, fd) → pid = k
  parent : ParentEnds s
  child : ∀ j < s.forked, ChildEnds s.slots j (s.children j)

/-! ### Children -/

namespace ChildEnds

variable {slots : List (ℕ × ℕ)} {j : ℕ} {c : Child}

/-- `close(pipefd[1])` closes the child's own write end and no other.  The
write ends it has inherited stay open. -/
theorem start (h : ChildEnds slots j c) (hpc : c.pc = .start) :
    ChildEnds slots j { c with table := c.table.close c.pipefd.2, pc := .wait } := by
  have hend : ¬c.pc.ended := by rw [hpc]; decide
  have hr : c.table.get c.pipefd.1 = some (.read j) := (h.read _ _).2 ⟨hend, rfl, rfl⟩
  have hw : c.table.get c.pipefd.2 = some (.write j) :=
    (h.write _ _).2 ⟨hend, .inr ⟨rfl, hpc, rfl⟩⟩
  have hend' : ¬ChildPc.wait.ended := by decide
  constructor
  · intro fd p
    rw [FdTable.get_close_iff, h.read]
    constructor
    · rintro ⟨-, -, hp, hfd⟩
      exact ⟨hend', hp, hfd⟩
    · rintro ⟨-, hp, hfd⟩
      refine ⟨?_, hend, hp, hfd⟩
      rintro rfl
      have heq : c.pipefd.2 = c.pipefd.1 := hfd
      rw [heq, hr] at hw
      cases hw
  · intro fd p
    rw [FdTable.get_close_iff, h.write]
    constructor
    · rintro ⟨hne, -, hslot | ⟨-, -, hfd⟩⟩
      · exact ⟨hend', .inl hslot⟩
      · exact absurd hfd hne
    · rintro ⟨-, ⟨hp, hslot⟩ | ⟨-, hstart, -⟩⟩
      · refine ⟨?_, hend, .inl ⟨hp, hslot⟩⟩
        rintro rfl
        have hw' := (h.write _ _).2 ⟨hend, .inl ⟨hp, hslot⟩⟩
        rw [hw] at hw'
        cases hw'
        exact absurd hp (Nat.lt_irrefl _)
      · cases hstart

/-- Behind its first step and before its end a child's descriptors do not
change. -/
theorem goes (h : ChildEnds slots j c) {pc : ChildPc} (hc : ¬c.pc.ended) (hc' : c.pc ≠ .start)
    (hpc : ¬pc.ended) (hpc' : pc ≠ .start) : ChildEnds slots j { c with pc := pc } where
  read fd p := by
    rw [h.read]
    exact and_congr_left' (iff_of_true hc hpc)
  write fd p := by
    rw [h.write]
    simp only [hc, hc', hpc, hpc']

/-- An ended process has nothing open. -/
theorem ends (slots : List (ℕ × ℕ)) (j : ℕ) (c : Child) {pc : ChildPc} (hpc : pc.ended) :
    ChildEnds slots j { c with table := .empty, pc := pc } where
  read fd p := iff_of_false (by simp) fun h => h.1 hpc
  write fd p := iff_of_false (by simp) fun h => h.1 hpc

/-- A slot that is added later is none of the child's: it has inherited the
slots of the children before it and no others. -/
theorem append (h : ChildEnds slots j c) (hj : j ≤ slots.length) (slot : ℕ × ℕ) :
    ChildEnds (slots ++ [slot]) j c where
  read := h.read
  write fd p := by
    rw [h.write]
    refine and_congr_right fun _ => or_congr_left (and_congr_right fun hp => ?_)
    rw [List.getElem?_append_left (Nat.lt_of_lt_of_le hp hj)]

end ChildEnds

/-- Each step of a child keeps the description of its own table: its first step
closes its write end, its last closes everything, and no other step opens or
closes anything. -/
theorem ChildStep.ends {s s' : State} {j : ℕ} (h : ChildStep s j s')
    (he : ChildEnds s.slots j (s.children j)) : ChildEnds s'.slots j (s'.children j) := by
  have update : ∀ {c : Child}, ChildEnds s.slots j c →
      ChildEnds s.slots j (Function.update s.children j c j) := by
    intro c hc
    rwa [Function.update_self]
  have hrun : ∀ command, ¬(ChildPc.run command).ended := by
    rintro command (h | h) <;> cases h
  cases h with
  | start hpc => exact update (he.start hpc)
  | eof hpc =>
    exact update (he.goes (by rw [hpc]; decide) (by rw [hpc]; decide) (by decide) (by decide))
  | read hpc => exact update (he.goes (by rw [hpc]; decide) (by rw [hpc]; decide) (hrun _) nofun)
  | short hpc | bad hpc => exact update (.ends _ _ _ (by decide))
  | run hpc =>
    exact update (he.goes (by rw [hpc]; exact hrun _) (by rw [hpc]; nofun) (by decide) (by decide))
  | quit hpc => exact update (.ends _ _ _ (by decide))

/-! ### The parent -/

section parent

variable {num cap : ℕ} {s s' : State}

/-- There is a pipe for each child. -/
theorem Counts.forked_le_piped (h : Counts num s) : s.forked ≤ s.piped := by
  unfold Counts at h
  split at h <;> omega

/-- A process that is no more has nothing open, whether by an assertion or by a
signal. -/
theorem ParentEnds.dies {pc : ParentPc} (h : pc = .aborted ∨ pc = .killed) :
    ParentEnds (s.dies pc) := by
  have hpipefd : ∀ pipefd, pc.pipefd ≠ some pipefd := by
    rcases h with rfl | rfl <;> nofun
  have hclosed : (s.dies pc).closed = s.slots.length := by
    rcases h with rfl | rfl <;> rfl
  constructor
  · intro fd p
    refine iff_of_false nofun ?_
    rintro ⟨pipefd, hp, -⟩
    exact hpipefd pipefd hp
  · intro fd p
    refine iff_of_false nofun ?_
    rintro (⟨hp, hslot⟩ | ⟨pipefd, hp, -⟩)
    · rw [hclosed] at hp
      have hnone : s.slots[p]? = none := List.getElem?_eq_none_iff.2 hp
      have hslot' : s.slots[p]? = some (p, fd) := hslot
      rw [hnone] at hslot'
      cases hslot'
    · exact hpipefd pipefd hp

/-- **`pipe` opens both ends of the new pipe and changes nothing else.**  They
get the two lowest free numbers, the read end the lower one. -/
theorem ParentEnds.pipe {i : ℕ} (h : ParentEnds s) (hpc : s.parent = .loop i)
    (hlen : s.slots.length = s.piped) :
    ParentEnds { s with
      parent := .fork i (s.table.lowest, (s.table.openLowest (.read s.piped)).lowest)
      table := (s.table.openLowest (.read s.piped)).openLowest (.write s.piped)
      piped := s.piped + 1 } := by
  have hclosed : s.closed = 0 := by unfold State.closed; rw [hpc]
  have hpipefd : s.parent.pipefd = none := by rw [hpc]; rfl
  constructor
  · intro fd p
    show FdTable.get ((s.table.openLowest _).openLowest _) fd = _ ↔ _
    rw [FdTable.get_openLowest_iff, FdTable.get_openLowest_iff, h.read, hpipefd]
    simp [ParentPc.pipefd, hlen, and_comm]
  · intro fd p
    show FdTable.get ((s.table.openLowest _).openLowest _) fd = _ ↔ _
    rw [FdTable.get_openLowest_iff, FdTable.get_openLowest_iff, h.write, hpipefd, hclosed]
    simp [ParentPc.pipefd, State.closed, hlen, and_comm, or_comm]

/-- **Behind `fork` the parent closes the read end and keeps the write end as a
slot.**  So the write ends it holds are those of its slots, and no read end is
left in its table. -/
theorem ParentEnds.father {i id : ℕ} {pipefd : ℕ × ℕ} (h : ParentEnds s)
    (hpc : s.parent = .father i id pipefd) (hid : id = s.slots.length) :
    ParentEnds { s with
      parent := .loop (i + 1)
      table := s.table.close pipefd.1
      slots := s.slots ++ [(id, pipefd.2)] } := by
  have hclosed : s.closed = 0 := by unfold State.closed; rw [hpc]
  have hpipefd : s.parent.pipefd = some pipefd := by rw [hpc]; rfl
  have hr : s.table.get pipefd.1 = some (.read s.slots.length) :=
    (h.read _ _).2 ⟨pipefd, hpipefd, rfl, rfl⟩
  have hne : ∀ fd p, s.table.get fd = some (.write p) → fd ≠ pipefd.1 := by
    rintro fd p hfd rfl
    rw [hr] at hfd
    cases hfd
  constructor
  · intro fd p
    show FdTable.get (s.table.close _) fd = _ ↔ _
    rw [FdTable.get_close_iff, h.read, hpipefd]
    refine iff_of_false ?_ nofun
    rintro ⟨hne, _, ⟨⟩, -, hfd⟩
    exact hne hfd
  · intro fd p
    show FdTable.get (s.table.close _) fd = _ ↔ _
    rw [FdTable.get_close_iff, and_iff_right_of_imp (hne fd p), h.write, hpipefd, hclosed]
    simp only [State.closed, ParentPc.pipefd, Nat.zero_le, true_and, reduceCtorEq, false_and,
      exists_false, or_false, Option.some.injEq, exists_eq_left']
    rw [hid]
    rcases Nat.lt_trichotomy p s.slots.length with hp | hp | hp
    · rw [List.getElem?_append_left hp]
      simp [Nat.ne_of_lt hp]
    · subst hp
      simp [eq_comm]
    · have hp' : (s.slots ++ [(s.slots.length, pipefd.2)]).length ≤ p := by
        rw [List.length_append]
        exact hp
      rw [List.getElem?_eq_none_iff.2 hp', List.getElem?_eq_none_iff.2 (Nat.le_of_lt hp)]
      simp [Nat.ne_of_gt hp]

/-- **Closing a slot closes that slot and no other.**  Two slots with one
number would be two files under it. -/
theorem ParentEnds.closeSlot {k fd : ℕ} (h : ParentEnds s) (hpc : s.parent = .closeSlot k)
    (hslot : s.slots[k]? = some (k, fd)) :
    ParentEnds { s with parent := .closeSlot (k + 1), table := s.table.close fd } := by
  have hclosed : s.closed = k := by unfold State.closed; rw [hpc]
  have hpipefd : s.parent.pipefd = none := by rw [hpc]; rfl
  have hw : s.table.get fd = some (.write k) := (h.write _ _).2 (.inl ⟨Nat.le_of_eq hclosed, hslot⟩)
  constructor
  · intro fd' p
    show FdTable.get (s.table.close _) fd' = _ ↔ _
    rw [FdTable.get_close_iff, h.read, hpipefd]
    simp [ParentPc.pipefd]
  · intro fd' p
    show FdTable.get (s.table.close _) fd' = _ ↔ _
    rw [FdTable.get_close_iff]
    constructor
    · rintro ⟨hne, hfd⟩
      rcases (h.write _ _).1 hfd with ⟨hp, hslot'⟩ | ⟨pipefd, hp, -⟩
      · refine .inl ⟨?_, hslot'⟩
        rw [hclosed] at hp
        show k + 1 ≤ p
        have hpk : p ≠ k := by
          rintro rfl
          rw [hslot] at hslot'
          cases hslot'
          exact hne rfl
        omega
      · rw [hpipefd] at hp
        cases hp
    · rintro (⟨hp, hslot'⟩ | ⟨pipefd, hp, -⟩)
      · have hp' : k + 1 ≤ p := hp
        have hfd : s.table.get fd' = some (.write p) :=
          (h.write _ _).2 (.inl ⟨by rw [hclosed]; omega, hslot'⟩)
        refine ⟨?_, hfd⟩
        rintro rfl
        rw [hw] at hfd
        cases hfd
        omega
      · cases hp

/-- A step that changes neither the table nor what the place in the code says
about it. -/
theorem ParentEnds.goes (h : ParentEnds s) (htable : s'.table = s.table)
    (hslots : s'.slots = s.slots) (hpipefd : s'.parent.pipefd = s.parent.pipefd)
    (hclosed : s'.closed = s.closed) : ParentEnds s' where
  read fd p := by rw [htable, hslots, hpipefd, h.read]
  write fd p := by rw [htable, hslots, hpipefd, hclosed, h.write]

/-- **The new child's table is the parent's:** both ends of its own pipe, and
the write ends of all pipes before. -/
theorem ParentEnds.inherited {i : ℕ} {pipefd : ℕ × ℕ} (h : ParentEnds s)
    (hpc : s.parent = .fork i pipefd) (hlen : s.slots.length = s.forked) :
    ChildEnds s.slots s.forked ⟨s.table, pipefd, .start⟩ := by
  have hfork : s.parent.pipefd = some pipefd := by rw [hpc]; rfl
  have hclosed : s.closed = 0 := by unfold State.closed; rw [hpc]
  constructor
  · intro fd p
    show s.table.get fd = _ ↔ _
    rw [h.read, hfork, hlen]
    simp [ChildPc.ended]
  · intro fd p
    show s.table.get fd = _ ↔ _
    rw [h.write, hfork, hclosed, hlen]
    have hlt : s.slots[p]? = some (p, fd) → p < s.forked := by
      intro hp
      obtain ⟨hp, -⟩ := List.getElem?_eq_some_iff.1 hp
      omega
    simp only [ChildPc.ended, reduceCtorEq, or_self, not_false_eq_true, true_and, Nat.zero_le,
      Option.some.injEq, exists_eq_left', and_iff_right_of_imp hlt]

/-- Behind the loop over the slots every slot has been closed, so that no child
waits for commands that cannot come. -/
theorem ParentEnds.waits {k : ℕ} (h : ParentEnds s) (hpc : s.parent = .closeSlot k)
    (hk : s.slots.length ≤ k) : ParentEnds { s with parent := .waitSlot 0 } := by
  have hclosed : s.closed = k := by unfold State.closed; rw [hpc]
  have hpipefd : s.parent.pipefd = none := by rw [hpc]; rfl
  constructor
  · intro fd p
    have hr := h.read fd p
    rwa [hpipefd] at hr
  · intro fd p
    have hw := h.write fd p
    rw [hclosed, hpipefd] at hw
    refine hw.trans (or_congr_left (and_congr_left fun hslot => ?_))
    obtain ⟨hp, -⟩ := List.getElem?_eq_some_iff.1 hslot
    show k ≤ p ↔ s.slots.length ≤ p
    omega

/-- Sending touches no descriptor, unless it kills the parent. -/
theorem sendAndWakeUp_frame {fd : ℕ} {command : UInt32}
    (h : sendAndWakeUp cap fd command s = some s') :
    (s'.parent = s.parent ∧ s'.table = s.table ∨ s'.parent = .killed ∧ s'.table = .empty) ∧
      s'.slots = s.slots ∧ s'.children = s.children ∧ s'.forked = s.forked ∧
      s'.piped = s.piped ∧ s'.log = s.log := by
  rcases sendAndWakeUp_cases h with ⟨p, -, -, rfl⟩ | ⟨p, -, -, rfl⟩ | ⟨-, rfl⟩
  · exact ⟨.inl ⟨rfl, rfl⟩, rfl, rfl, rfl, rfl, rfl⟩
  · exact ⟨.inr ⟨rfl, rfl⟩, rfl, rfl, rfl, rfl, rfl⟩
  · exact ⟨.inl ⟨rfl, rfl⟩, rfl, rfl, rfl, rfl, rfl⟩

/-- The new slot stands under the number of its child, as there is one slot for
each child so far. -/
theorem slot_append {id : ℕ} (h : ∀ k pid fd : ℕ, s.slots[k]? = some (pid, fd) → pid = k)
    (hid : id = s.slots.length) (fd : ℕ) :
    ∀ k pid fd' : ℕ, (s.slots ++ [(id, fd)])[k]? = some (pid, fd') → pid = k := by
  intro k pid fd' hk
  rcases Nat.lt_or_ge k s.slots.length with hlt | hge
  · rw [List.getElem?_append_left hlt] at hk
    exact h k pid fd' hk
  · have hk' : [(id, fd)][k - s.slots.length]? = some (pid, fd') := by
      rwa [← List.getElem?_append_right hge]
    obtain ⟨hzero, heq⟩ := List.getElem?_eq_some_iff.1 hk'
    have hzero' : k - s.slots.length = 0 := Nat.lt_one_iff.1 hzero
    simp only [hzero', List.getElem_cons_zero, Prod.mk.injEq] at heq
    omega

/-- A command that is sent leaves everyone's descriptors, or kills the parent:
where the read end of the slot is gone, the write raises `SIGPIPE`. -/
theorem Ends.send {fd : ℕ} {command : UInt32} (h : Ends num s) (hpc : s.parent = .serve)
    (hs : sendAndWakeUp cap fd command s = some s') : Ends num s' := by
  have hcounts := h.counts
  unfold Counts at hcounts
  rw [hpc] at hcounts
  obtain ⟨hparent, hslots, hchildren, hforked, hpiped, -⟩ := sendAndWakeUp_frame hs
  have hcounts' : s'.slots.length = num ∧ s'.forked = num ∧ s'.piped = num := by
    rw [hslots, hforked, hpiped]
    exact hcounts
  have hslot' : ∀ k pid fd : ℕ, s'.slots[k]? = some (pid, fd) → pid = k := by
    rw [hslots]
    exact h.slot
  have hchild : ∀ j < s'.forked, ChildEnds s'.slots j (s'.children j) := by
    rw [hslots, hforked, hchildren]
    exact h.child
  rcases hparent with ⟨hparent, htable⟩ | ⟨hparent, htable⟩
  · refine ⟨?_, hslot', ?_, hchild⟩
    · unfold Counts
      rw [hparent, hpc]
      exact hcounts'
    · refine h.parent.goes htable hslots (by rw [hparent]) ?_
      unfold State.closed
      rw [hparent, hslots]
  · refine ⟨?_, hslot', ?_, hchild⟩
    · unfold Counts
      rw [hparent]
      exact hcounts'
    · exact (ParentEnds.dies (s := s') (.inr hparent)).goes htable rfl rfl rfl

/-- **A step of the parent keeps what every process has open.**  `fork` gives
the new child the table of the parent as it is, with all write ends kept so
far; the other steps concern the parent's table only. -/
theorem Ends.parentStep (h : Ends num s) (hstep : ParentStep num cap s s') : Ends num s' := by
  have hcounts := h.counts
  unfold Counts at hcounts
  cases hstep with
  | abort hpc =>
    refine ⟨?_, h.slot, .dies (.inl rfl), h.child⟩
    show s.slots.length ≤ num ∧ s.forked = s.slots.length ∧ s.forked ≤ s.piped
    rcases hpc with ⟨i, hpc⟩ | ⟨i, pipefd, hpc⟩
    all_goals
      rw [hpc] at hcounts
      simp only at hcounts
      omega
  | pipe hpc hi =>
    rw [hpc] at hcounts
    obtain ⟨-, hslots, hforked, hpiped⟩ := hcounts
    exact ⟨⟨hi, hslots, hforked, congrArg (· + 1) hpiped⟩, h.slot,
      h.parent.pipe hpc (hslots.trans hpiped.symm), h.child⟩
  | forked hpc hi =>
    rw [hpc] at hcounts
    obtain ⟨hle, hslots, hforked, hpiped⟩ := hcounts
    have hnum := Nat.le_antisymm hle hi
    refine ⟨⟨hslots.trans hnum, hforked.trans hnum, hpiped.trans hnum⟩, h.slot, ?_, h.child⟩
    exact h.parent.goes rfl rfl (by rw [hpc]; rfl) (by unfold State.closed; rw [hpc])
  | @fork i pipefd hpc =>
    rw [hpc] at hcounts
    obtain ⟨hi, hslots, hforked, hpiped⟩ := hcounts
    refine ⟨⟨hi, hforked, hslots, congrArg (· + 1) hforked, hpiped⟩, h.slot,
      h.parent.goes rfl rfl (by rw [hpc]; rfl) (by unfold State.closed; rw [hpc]), ?_⟩
    exact FdTable.forall_forked (P := ChildEnds s.slots) h.child
      (h.parent.inherited hpc (hslots.trans hforked.symm))
  | @father i id pipefd hpc =>
    rw [hpc] at hcounts
    obtain ⟨hi, hid, hslots, hforked, hpiped⟩ := hcounts
    have hid' : id = s.slots.length := hid.trans hslots.symm
    refine ⟨⟨hi, ?_, hforked, hpiped⟩, slot_append h.slot hid' _, h.parent.father hpc hid', ?_⟩
    · show (s.slots ++ [(id, pipefd.2)]).length = i + 1
      rw [List.length_append, hslots]
      rfl
    · intro j hj
      have hj' : j < i + 1 := hforked ▸ hj
      exact (h.child j hj).append (by omega) _
  | @send choice pid fd command s' hpc hslot hc hs =>
    have hsent : Ends num { s with sent := s.sent ++ [(choice, command)] } :=
      ⟨h.counts, h.slot, h.parent.goes rfl rfl rfl rfl, h.child⟩
    exact hsent.send hpc hs
  | @closeSlot k pid fd hpc hslot =>
    rw [hpc] at hcounts
    obtain rfl := h.slot k pid fd hslot
    exact ⟨hcounts, h.slot, h.parent.closeSlot hpc hslot, h.child⟩
  | @closed k hpc hk =>
    rw [hpc] at hcounts
    exact ⟨hcounts, h.slot, h.parent.waits hpc hk, h.child⟩
  | waitSlot hpc =>
    rw [hpc] at hcounts
    exact ⟨hcounts, h.slot, h.parent.goes rfl rfl (by rw [hpc]; rfl)
      (by unfold State.closed; rw [hpc]), h.child⟩
  | waited hpc =>
    rw [hpc] at hcounts
    exact ⟨hcounts, h.slot, h.parent.goes rfl rfl (by rw [hpc]; rfl)
      (by unfold State.closed; rw [hpc]), h.child⟩

/-- A step of a child keeps what every process has open: it touches no table
but its own, and opens nothing there. -/
theorem Ends.childStep {j : ℕ} (h : Ends num s) (hj : j < s.forked) (hstep : ChildStep s j s') :
    Ends num s' := by
  obtain ⟨hparent, htable, hslots, hforked, hpiped, -, hother⟩ := hstep.frame
  refine ⟨?_, ?_, ?_, ?_⟩
  · have hcounts := h.counts
    unfold Counts at hcounts ⊢
    rwa [hparent, hslots, hforked, hpiped]
  · rw [hslots]
    exact h.slot
  · refine h.parent.goes htable hslots (by rw [hparent]) ?_
    unfold State.closed
    rw [hparent, hslots]
  · intro k hk
    by_cases hkj : k = j
    · subst hkj
      exact hstep.ends (h.child k hj)
    · rw [hslots, (hother k hkj).1]
      exact h.child k (hforked ▸ hk)

/-- **The descriptors are described at every step.** -/
theorem Ends.step (h : Ends num s) (hstep : Step num cap s s') : Ends num s' := by
  rcases hstep with ⟨choice, hp⟩ | ⟨j, hj, hc⟩
  · exact h.parentStep (parentStep_cases hp)
  · exact h.childStep hj (childStep_cases hc)

/-- At the start nothing is open but what was open before: no end of a pipe,
and no child. -/
theorem Ends.new : Ends num .new where
  counts := ⟨Nat.zero_le _, rfl, rfl, rfl⟩
  slot k pid fd h := by cases h
  parent := by
    have hother : ∀ fd e, State.new.table.get fd = some e → e = .other := by
      intro fd e h
      match fd, h with
      | 0, h | 1, h | 2, h => exact (Option.some.inj h).symm
    constructor
    · intro fd p
      refine iff_of_false (fun h => ?_) ?_
      · cases hother fd _ h
      · rintro ⟨_, ⟨⟩, -⟩
    · intro fd p
      refine iff_of_false (fun h => ?_) ?_
      · cases hother fd _ h
      · rintro (⟨-, h⟩ | ⟨_, ⟨⟩, -⟩)
        cases h
  child j hj := absurd hj (Nat.not_lt_zero j)

/-- Behind the fork loop there are `num` of each. -/
theorem Ends.counts_serve (h : Ends num s) (hpc : s.parent = .serve) :
    s.slots.length = num ∧ s.forked = num ∧ s.piped = num := by
  have hcounts := h.counts
  unfold Counts at hcounts
  rwa [hpc] at hcounts

/-- The closing code starts with everything as it is. -/
theorem Ends.closing (h : Ends num s) (hpc : s.parent = .serve) :
    Ends num { s with parent := .closeSlot 0 } :=
  ⟨h.counts_serve hpc, h.slot, h.parent.goes rfl rfl (by rw [hpc]; rfl)
    (by unfold State.closed; rw [hpc]), h.child⟩

end parent

/-! ### Nobody gets an end back -/

section held

variable {num cap : ℕ} {s s' : State} {e : End}

/-- Who has an end open after a step had it before, if nobody opens it.  The
steps that open an end are `pipe` and `fork` alone. -/
theorem State.Held.mono (h : s'.Held e) (hparent : s'.table.Holds e → s.table.Holds e)
    (hchild : ∀ j < s'.forked, (s'.children j).table.Holds e → s.Held e) : s.Held e := by
  rcases h with h | ⟨j, hj, h⟩
  · exact .inl (hparent h)
  · exact hchild j hj h

/-- **A write end of a pipe that is there is held by nobody who has it from
nobody.**  The parent opens ends of new pipes only, and a child gets what the
parent has. -/
theorem ParentStep.held_write {p : ℕ} (h : ParentStep num cap s s') (hp : p < s.piped)
    (hheld : s'.Held (.write p)) : s.Held (.write p) := by
  cases h with
  | abort =>
    refine hheld.mono (fun h => ?_) fun j hj h => .inr ⟨j, hj, h⟩
    exact absurd h (FdTable.not_holds_empty _)
  | pipe =>
    refine hheld.mono ?_ fun j hj h => .inr ⟨j, hj, h⟩
    rintro ⟨fd, hfd⟩
    rcases (FdTable.get_openLowest_iff _ _ _ _).1 hfd with ⟨-, heq⟩ | hfd
    · cases heq
      exact absurd hp (Nat.lt_irrefl _)
    · rcases (FdTable.get_openLowest_iff _ _ _ _).1 hfd with ⟨-, heq⟩ | hfd
      · cases heq
      · exact ⟨fd, hfd⟩
  | fork =>
    refine hheld.mono id fun j hj h => ?_
    rcases Nat.lt_succ_iff_lt_or_eq.1 hj with hj | rfl
    · refine .inr ⟨j, hj, ?_⟩
      have hj' : (Function.update s.children s.forked _ j).table.Holds (.write p) := h
      rwa [Function.update_of_ne (Nat.ne_of_lt hj)] at hj'
    · refine .inl ?_
      have hj' : (Function.update s.children s.forked _ s.forked).table.Holds (.write p) := h
      rwa [Function.update_self] at hj'
  | father | closeSlot => exact hheld.mono FdTable.Holds.of_close fun j hj h => .inr ⟨j, hj, h⟩
  | send _ _ _ hs =>
    obtain ⟨hparent, -, hchildren, hforked, -⟩ := sendAndWakeUp_frame hs
    refine hheld.mono ?_ fun j hj h => .inr ⟨j, hforked ▸ hj, hchildren ▸ h⟩
    rcases hparent with ⟨-, htable⟩ | ⟨-, htable⟩
    · rw [htable]
      exact id
    · rw [htable]
      exact fun h => absurd h (FdTable.not_holds_empty _)
  | forked | closed | waitSlot | waited => exact hheld

/-- A child opens nothing. -/
theorem ChildStep.holds {j : ℕ} (h : ChildStep s j s') (hh : (s'.children j).table.Holds e) :
    (s.children j).table.Holds e := by
  have update : ∀ {c : Child}, (Function.update s.children j c j).table.Holds e →
      c.table.Holds e := by
    intro c hc
    rwa [Function.update_self] at hc
  cases h with
  | start => exact (update hh).of_close
  | eof | read | run =>
    have hc := update hh
    exact hc
  | short | bad | quit => exact absurd (update hh) (FdTable.not_holds_empty _)

/-- So whatever is open after a child's step was open before it: a child only
closes. -/
theorem ChildStep.held {j : ℕ} (h : ChildStep s j s') (hheld : s'.Held e) : s.Held e := by
  obtain ⟨-, htable, -, hforked, -, -, hother⟩ := h.frame
  refine hheld.mono (fun hp => htable ▸ hp) fun k hk hc => .inr ⟨k, hforked ▸ hk, ?_⟩
  by_cases hkj : k = j
  · subst hkj
    exact h.holds hc
  · rwa [(hother k hkj).1] at hc

end held

end ProcessPool
end OSNetWorkCode
