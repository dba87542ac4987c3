/-
# The shutdown runs every command that was sent

Closing the pool takes nothing away: what is in the pipes when the parent
begins to close is read, and run, before the children end.  For a child leaves
its loop only with its pipe empty, and nothing is written any more, so that the
pipe stays so (`Emptied`).

And it comes to that in every run.  Each step of the closing code makes `rank`
smaller: the parent has so many calls before it, and a child so many bytes.
Somebody has a step until the parent has returned and all children have ended,
since the last one that is left has nobody it could wait for (`all_exited`).
-/

import Mathlib.Algebra.Order.BigOperators.Group.Finset
import OSNetWorkCode.Lib.Inevitable
import OSNetWorkCode.ProcessPool.Shutdown

namespace OSNetWorkCode
namespace ProcessPool

variable {num cap : ℕ} {s s' : State}

/-! ### Nothing is left in a pipe -/

/-- A child that has left its loop has emptied its pipe. -/
def Emptied (s : State) : Prop :=
  ∀ j < s.forked, (s.children j).pc = .quit ∨ (s.children j).pc = .exited → s.pipes j = []

/-- No child leaves its loop while the pool serves: the parent has a write end
of every pipe. -/
theorem emptied_of_serve (h : (sys num cap).Reachable s) (hpc : s.parent = .serve) :
    Emptied s := by
  obtain ⟨he, hf⟩ := sys_invariant h
  intro j hj hdone
  obtain ⟨hslots, hforked, -⟩ := he.counts_serve hpc
  obtain ⟨fd, -, hfd⟩ := slot_open h (by rw [hpc]; nofun) (show j < s.slots.length by omega)
  exact absurd (.inl ⟨fd, hfd⟩) (hf.done j hj hdone)

/-- The closing code leaves pipes and children alone. -/
theorem ParentStep.closing_frame (h : ParentStep num cap s s') (hc : s.parent.Closing) :
    s'.forked = s.forked ∧ s'.children = s.children ∧ s'.pipes = s.pipes := by
  cases h with
  | abort hpc =>
    rcases hpc with ⟨i, hpc⟩ | ⟨i, pipefd, hpc⟩ <;> rw [hpc] at hc <;> exact hc.elim
  | pipe hpc | forked hpc | fork hpc | father hpc | send hpc =>
    rw [hpc] at hc
    exact hc.elim
  | closeSlot | closed | waitSlot | waited => exact ⟨rfl, rfl, rfl⟩

/-- A child takes from its own pipe only, and only at its read.  No other pipe
is read from by anybody. -/
theorem ChildStep.pipes {j : ℕ} (h : ChildStep s j s') (he : ChildEnds s.slots j (s.children j)) :
    ∀ k, s'.pipes k = s.pipes k ∨ k = j ∧ (s.children j).pc = .wait := by
  have hown : ∀ {p}, (s.children j).table.get (s.children j).pipefd.1 = some (.read p) → p = j :=
    fun hfd => ((he.read _ _).1 hfd).2.1
  intro k
  cases h with
  | @read p hpc hfd | @short p hpc hfd =>
    by_cases hk : k = p
    · exact .inr ⟨hk.trans (hown hfd), hpc⟩
    · exact .inl (Function.update_of_ne hk _ _)
  | start | eof | bad | run | quit => exact .inl rfl

/-- A child's step keeps what has ended emptied: a child leaves its loop with
an empty pipe, and takes nothing from another's. -/
theorem Emptied.childStep {j : ℕ} (h : Emptied s) (he : ChildEnds s.slots j (s.children j))
    (hj : j < s.forked) (hstep : ChildStep s j s') : Emptied s' := by
  obtain ⟨-, -, -, hforked, -, -, hother⟩ := hstep.frame
  intro k hk hdone
  rw [hforked] at hk
  by_cases hkj : k = j
  · subst hkj
    have self : ∀ {c : Child}, (Function.update s.children k c k).pc = .quit ∨
        (Function.update s.children k c k).pc = .exited → c.pc = .quit ∨ c.pc = .exited := by
      intro c hc
      rwa [Function.update_self] at hc
    cases hstep with
    | start | read | run => rcases self hdone with hc | hc <;> cases hc
    | short | bad => rcases self hdone with hc | hc <;> cases hc
    | eof hpc hfd hempty hheld =>
      obtain ⟨-, rfl, -⟩ := (he.read _ _).1 hfd
      exact hempty
    | quit hpc => exact h k hj (.inl hpc)
  · rw [(hother k hkj).1] at hdone
    rcases hstep.pipes he k with heq | ⟨rfl, -⟩
    · rw [heq]
      exact h k hk hdone
    · exact absurd rfl hkj

/-- The invariants of the closing code. -/
structure Draining (num : ℕ) (s : State) : Prop extends ShuttingDown num s where
  emptied : Emptied s

/-- **The invariants of the closing code hold in every run of it.**  They are
those of the pool, carried on from where the closing code begins. -/
theorem draining (h : (shutdown num cap).Reachable s) : Draining num s := by
  refine ⟨shutdown_invariant h, h.invariant ?_ ?_⟩
  · rintro s ⟨s₀, h₀, hpc, rfl⟩
    exact fun j hj hdone => emptied_of_serve h₀ hpc j hj hdone
  · rintro s s' hreach hemptied hstep
    obtain ⟨he, -, hc⟩ := shutdown_invariant hreach
    rcases hstep with ⟨choice, hp⟩ | ⟨j, hj, hchild⟩
    · obtain ⟨hforked, hchildren, hpipes⟩ := (parentStep_cases hp).closing_frame hc
      unfold Emptied
      rw [hforked, hchildren, hpipes]
      exact hemptied
    · exact hemptied.childStep (he.child j hj) hj (childStep_cases hchild)

/-! ### Every run ends -/

/-- How many calls the closing code has before it. -/
def ParentPc.rank (num : ℕ) : ParentPc → ℕ
  | .closeSlot k => num + 2 + (num - k)
  | .waitSlot k => 1 + (num - k)
  | _ => 0

/-- How many steps a child has before it, its reads apart. -/
def ChildPc.rank : ChildPc → ℕ
  | .start => 3
  | .run _ => 3
  | .wait => 2
  | .quit => 1
  | .exited | .aborted => 0

/-- What is left for a child to do: a read is worth four bytes. -/
def left (s : State) (j : ℕ) : ℕ := (s.children j).pc.rank + (s.pipes j).length

/-- What is left to do for everybody. -/
def rank (num : ℕ) (s : State) : ℕ :=
  s.parent.rank num + ∑ j ∈ Finset.range s.forked, left s j

/-- **A step of a child makes what is left for it less,** and changes nothing
for the others. -/
theorem ChildStep.left_lt {j : ℕ} (h : ChildStep s j s')
    (he : ChildEnds s.slots j (s.children j)) :
    left s' j < left s j ∧ ∀ k ≠ j, left s' k = left s k := by
  have hown : ∀ {p}, (s.children j).table.get (s.children j).pipefd.1 = some (.read p) → p = j :=
    fun hfd => ((he.read _ _).1 hfd).2.1
  constructor
  · cases h with
    | start hpc | eof hpc | run hpc | quit hpc | bad hpc =>
      simp [left, State.setChild, hpc, ChildPc.rank]
    | read hpc hfd hfour =>
      obtain rfl := hown hfd
      simp only [left, State.setChild, hpc, ChildPc.rank, Function.update_self, List.length_drop]
      omega
    | short hpc hfd hpos hshort =>
      obtain rfl := hown hfd
      simp only [left, State.setChild, hpc, ChildPc.rank, Function.update_self, List.length_drop]
      omega
  · intro k hk
    have hchild := (h.frame.2.2.2.2.2.2 k hk).1
    rcases h.pipes he k with hpipe | ⟨rfl, -⟩
    · rw [left, left, hchild, hpipe]
    · exact absurd rfl hk

/-- A step of a child makes the rank smaller: it takes a command out of its
pipe, runs it, or comes nearer to its exit. -/
theorem ChildStep.rank_lt {j : ℕ} (h : ChildStep s j s') (hj : j < s.forked)
    (he : ChildEnds s.slots j (s.children j)) : rank num s' < rank num s := by
  obtain ⟨hparent, -, -, hforked, -⟩ := h.frame
  obtain ⟨hlt, hother⟩ := h.left_lt he
  unfold rank
  rw [hparent, hforked]
  refine Nat.add_lt_add_left (Finset.sum_lt_sum (fun k _ => ?_) ⟨j, Finset.mem_range.2 hj, hlt⟩) _
  by_cases hk : k = j
  · exact hk ▸ Nat.le_of_lt hlt
  · exact Nat.le_of_eq (hother k hk)

/-- A step of the closing code makes the rank smaller: it does not go back, and
starts nothing that would have to be done again. -/
theorem ParentStep.rank_lt (h : ParentStep num cap s s') (hcounts : Counts num s)
    (hc : s.parent.Closing) : rank num s' < rank num s := by
  obtain ⟨hforked, hchildren, hpipes⟩ := h.closing_frame hc
  have hleft : ∀ j, left s' j = left s j := fun j => by rw [left, left, hchildren, hpipes]
  unfold rank
  rw [hforked, Finset.sum_congr rfl fun j _ => hleft j]
  refine Nat.add_lt_add_right ?_ _
  have hlen : s.slots.length = num := by
    unfold Counts at hcounts
    cases hpc : s.parent with
    | closeSlot | waitSlot | returned => rw [hpc] at hcounts; exact hcounts.1
    | _ => rw [hpc] at hc; exact hc.elim
  cases h with
  | abort hpc =>
    rcases hpc with ⟨i, hpc⟩ | ⟨i, pipefd, hpc⟩ <;> rw [hpc] at hc <;> exact hc.elim
  | pipe hpc | forked hpc | fork hpc | father hpc | send hpc =>
    rw [hpc] at hc
    exact hc.elim
  | @closeSlot k pid fd hpc hslot | @waitSlot k pid fd hpc hslot =>
    obtain ⟨hk, -⟩ := List.getElem?_eq_some_iff.1 hslot
    simp only [hpc, ParentPc.rank]
    omega
  | closed hpc hk | waited hpc hk =>
    simp only [hpc, ParentPc.rank]
    omega

/-- **Until all children have ended, one of them has a step,** once the parent
has closed its slots. -/
theorem child_steps (h : Draining num s) (hclosed : s.closed = s.slots.length)
    (hpipefd : s.parent.pipefd = none) (hleft : ¬∀ j < s.forked, (s.children j).pc = .exited) :
    ∃ s', Step num cap s s' := by
  by_contra hnone
  refine hleft (all_exited h.ends h.flow hclosed hpipefd fun j hj => ?_)
  exact Option.eq_none_iff_forall_ne_some.2 fun s' hs' => hnone ⟨s', .child j hj hs'⟩

/-- Everything that was sent is done, and everybody has ended. -/
structure Drained (num : ℕ) (s : State) : Prop where
  returned : s.parent = .returned
  forked : s.forked = num
  exited : ∀ j < num, (s.children j).pc = .exited
  log : ∀ j < num, s.log j = (sentTo j s.sent).flatMap round

/-- **A child that has ended has run what was sent to it.**  Its pipe is empty,
so that all of it was read, and each command read was run before the next. -/
theorem Draining.log_eq (h : Draining num s) {j : ℕ} (hj : j < s.forked)
    (hpc : (s.children j).pc = .exited) : s.log j = (sentTo j s.sent).flatMap round := by
  obtain ⟨cs, hlog⟩ := h.flow.log j hj
  obtain ⟨rest, hpipe, hrest⟩ := h.flow.pipe j
  rw [hpc] at hlog
  have hrun : s.log j = cs.flatMap round := hlog.trans (List.append_nil _)
  have hnil : rest = [] := by
    have hlen := length_flatMap_encode rest
    rw [← hpipe, h.emptied j hj (.inr hpc)] at hlen
    exact List.length_eq_zero_iff.1 (by simp only [List.length_nil] at hlen; omega)
  rw [hnil, List.append_nil, hrun, reads_rounds] at hrest
  rw [hrun, hrest]

/-- Where not everything is drained somebody has a step: the parent closes, a
child goes on, or a child has ended that the parent waits for. -/
theorem progress (h : Draining num s) (hnot : ¬Drained num s) : ∃ s', Step num cap s s' := by
  have hclosing := h.closing
  have hcounts := h.ends.counts
  unfold Counts at hcounts
  cases hpc : s.parent with
  | loop | fork | father | serve | aborted | killed =>
    rw [hpc] at hclosing
    exact hclosing.elim
  | closeSlot k =>
    cases hslot : s.slots[k]? with
    | some slot => exact ⟨_, .parent .go (by simp only [parentStep, hpc, hslot]; rfl)⟩
    | none => exact ⟨_, .parent .go (by simp only [parentStep, hpc, hslot]; rfl)⟩
  | waitSlot k =>
    by_cases hexited : ∀ j < s.forked, (s.children j).pc = .exited
    · cases hslot : s.slots[k]? with
      | some slot =>
        obtain ⟨hk, -⟩ := List.getElem?_eq_some_iff.1 hslot
        rw [hpc] at hcounts
        have hpid : slot.1 = k := h.ends.slot k slot.1 slot.2 hslot
        have hended : (s.children slot.1).pc.ended := .inl (hexited _ (by omega))
        exact ⟨_, .parent .go (by simp only [parentStep, hpc, hslot, if_pos hended]; rfl)⟩
      | none => exact ⟨_, .parent .go (by simp only [parentStep, hpc, hslot]; rfl)⟩
    · exact child_steps h (by unfold State.closed; rw [hpc]) (by rw [hpc]; rfl) hexited
  | returned =>
    refine child_steps h (by unfold State.closed; rw [hpc]) (by rw [hpc]; rfl) fun hexited => ?_
    rw [hpc] at hcounts
    obtain ⟨-, hforked, -⟩ := hcounts
    exact hnot ⟨hpc, hforked, fun j hj => hexited j (hforked ▸ hj),
      fun j hj => h.log_eq (hforked ▸ hj) (hexited j (hforked ▸ hj))⟩

/-- **The shutdown ends, and runs everything that was sent.**  From every state
of the closing code, for any number of children, any capacity of the pipes and
any commands left in them, and whoever is scheduled: every run comes to a state
where the parent has returned, all `num` children have exited, and each of them
has read and run, one after the other, all commands sent through its slot. -/
theorem shutdown_drains (h : (shutdown num cap).Reachable s) :
    (shutdown num cap).Inevitable (Drained num) s := by
  refine h.inevitable (rank num) (fun s s' hreach hstep _ => ?_)
    fun s hreach hnot => progress (draining hreach) hnot
  obtain ⟨⟨he, -, hc⟩, -⟩ := draining hreach
  rcases hstep with ⟨choice, hp⟩ | ⟨j, hj, hchild⟩
  · exact (parentStep_cases hp).rank_lt he.counts hc
  · exact (childStep_cases hchild).rank_lt hj (he.child j hj)

/-- The parent begins to close with a command in the pipe of its first
child. -/
theorem shutdown_drains_two : ∃ s, (shutdown 2 8).Reachable s ∧ s.parent = .closeSlot 0 ∧
    s.sent = [(0, 3)] ∧ s.log 0 = [] ∧ (shutdown 2 8).Inevitable (Drained 2) s := by
  obtain ⟨s₀, h₀, hserve, hsent, hlog⟩ : ∃ s₀, replay 2 8 oneCommand .new = some s₀ ∧
      s₀.parent = .serve ∧ s₀.sent = [(0, 3)] ∧ s₀.log 0 = [] := ⟨_, rfl, rfl, rfl, rfl⟩
  have hsys : (sys 2 8).Reachable s₀ := replay_reachable rfl oneCommand (.init rfl) h₀
  have hreach : (shutdown 2 8).Reachable { s₀ with parent := .closeSlot 0 } :=
    .init ⟨s₀, hsys, hserve, rfl⟩
  exact ⟨_, hreach, rfl, hsent, hlog, shutdown_drains hreach⟩

end ProcessPool
end OSNetWorkCode
