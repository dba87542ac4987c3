/-
# Shutting the pool down does not hang

The parent closes its slots and waits for its children in the order of the
slots.  Closing slot `i` does not end child `i`: the children behind it have
inherited a write end of its pipe and never close it.  What there is of write
ends goes one way, from a child to the pipes of the children before it.  So the
last child that has not ended has nobody left who could write to it, its read
does not wait, and it ends (`last_exited`); the induction from the last child
down is `all_exited`.  A state in which nobody can take a step is therefore the
end (`shutdown_completes`).
-/

import OSNetWorkCode.ProcessPool.Commands

namespace OSNetWorkCode
namespace ProcessPool

section shutdown

variable {num cap : ℕ} {s s' : State}

/-- Both invariants, and that the parent stays in the closing code. -/
structure ShuttingDown (num : ℕ) (s : State) : Prop where
  ends : Ends num s
  flow : Flow s
  closing : s.parent.Closing

/-- The closing code leads nowhere else.  With `Step.closing`, the parent is in
it from some step on or never. -/
theorem Step.stays (h : Step num cap s s') (hc : s.parent.Closing) : s'.parent.Closing := by
  rcases h with ⟨choice, hp⟩ | ⟨j, hj, hchild⟩
  · cases parentStep_cases hp with
    | abort hpc =>
      rcases hpc with ⟨i, hpc⟩ | ⟨i, pipefd, hpc⟩
      all_goals
        rw [hpc] at hc
        exact hc.elim
    | pipe hpc | forked hpc | fork hpc | father hpc | send hpc =>
      rw [hpc] at hc
      exact hc.elim
    | closeSlot | closed | waitSlot | waited => trivial
  · rwa [(childStep_cases hchild).frame.1]

/-- Both invariants hold in the closing code too, which begins with what the
pool has left. -/
theorem shutdown_invariant (h : (shutdown num cap).Reachable s) : ShuttingDown num s := by
  refine System.Reachable.invariant (I := ShuttingDown num) ?_ ?_ h
  · rintro s ⟨s₀, h₀, hpc, rfl⟩
    obtain ⟨he, hf⟩ := sys_invariant h₀
    refine ⟨he.closing hpc, ?_, trivial⟩
    refine hf.goes rfl rfl rfl rfl rfl (fun j _ hw => ?_) nofun
    exact hw.mono id fun k hk hc => .inr ⟨k, hk, hc⟩
  · rintro s s' - ⟨he, hf, hc⟩ hstep
    exact ⟨he.step hstep, hf.step he hstep, hstep.stays hc⟩

/-- **End-of-file comes from an empty pipe that nobody can write to,** neither
the parent nor a child that has inherited a write end. -/
theorem eof {j : ℕ} (he : Ends num s) (hj : j < s.forked) (hpc : (s.children j).pc = .wait)
    (hstep : childStep s j = some s') (hquit : (s'.children j).pc = .quit) :
    s.pipes j = [] ∧ ¬s.Held (.write j) := by
  have self : ∀ {c : Child}, (Function.update s.children j c j).pc = .quit → c.pc = .quit := by
    intro c hc
    rwa [Function.update_self] at hc
  cases childStep_cases hstep with
  | start hpc' | run hpc' | quit hpc' =>
    rw [hpc] at hpc'
    cases hpc'
  | eof _ hfd hempty hheld =>
    obtain ⟨-, rfl, -⟩ := ((he.child j hj).read _ _).1 hfd
    exact ⟨hempty, hheld⟩
  | read | short | bad => cases self hquit

/-- A child waits only for a writer.  Where it has no step it has exited, or
somebody could still write to it. -/
theorem childStep_none {j : ℕ} (he : Ends num s) (hf : Flow s) (hj : j < s.forked)
    (h : childStep s j = none) :
    (s.children j).pc = .exited ∨ (s.children j).pc = .wait ∧ s.Held (.write j) := by
  unfold childStep at h
  simp only at h
  split at h
  · cases h
  · rename_i hpc
    refine .inr ⟨hpc, ?_⟩
    have hfd : (s.children j).table.get (s.children j).pipefd.1 = some (.read j) :=
      ((he.child j hj).read _ _).2 ⟨by rw [hpc]; decide, rfl, rfl⟩
    unfold waitCommand at h
    simp only [hfd] at h
    split_ifs at h
    assumption
  · cases h
  · cases h
  · exact .inl (by assumption)
  · rename_i hpc
    exact absurd hpc (hf.asserted j hj)

/-- **The last child does not wait.**  Where the parent has closed its slots
and every later child has ended, nobody has a write end of the child's pipe. -/
theorem last_exited (he : Ends num s) (hf : Flow s) (hclosed : s.closed = s.slots.length)
    (hpipefd : s.parent.pipefd = none) {j : ℕ} (hj : j < s.forked) (hstuck : childStep s j = none)
    (hlater : ∀ k < s.forked, j < k → (s.children k).pc = .exited) :
    (s.children j).pc = .exited := by
  rcases childStep_none he hf hj hstuck with hexit | ⟨hwait, ⟨fd, hfd⟩ | ⟨k, hk, fd, hfd⟩⟩
  · exact hexit
  · rcases (he.parent.write _ _).1 hfd with ⟨hle, hslot⟩ | ⟨pipefd, hsome, -⟩
    · obtain ⟨hlt, -⟩ := List.getElem?_eq_some_iff.1 hslot
      omega
    · rw [hpipefd] at hsome
      cases hsome
  · rcases ((he.child k hk).write _ _).1 hfd with ⟨hlive, ⟨hlt, -⟩ | ⟨rfl, hstart, -⟩⟩
    · exact absurd (.inl (hlater k hk hlt)) hlive
    · rw [hwait] at hstart
      cases hstart

/-- **Once the parent has closed its slots, some child can go on until all have
exited.**  By induction from the last child down, in the order in which the
write ends were inherited. -/
theorem all_exited (he : Ends num s) (hf : Flow s) (hclosed : s.closed = s.slots.length)
    (hpipefd : s.parent.pipefd = none) (hstuck : ∀ j < s.forked, childStep s j = none) :
    ∀ j < s.forked, (s.children j).pc = .exited := by
  -- from the last child down: `n` children from `j` on
  have hdown : ∀ n, ∀ j < s.forked, s.forked ≤ j + n → (s.children j).pc = .exited := by
    intro n
    induction n with
    | zero =>
      intro j hj hle
      omega
    | succ n ih =>
      intro j hj hle
      exact last_exited he hf hclosed hpipefd hj (hstuck j hj)
        fun k hk hjk => ih k hk (by omega)
  intro j hj
  exact hdown s.forked j hj (by omega)

/-- **Shutting the pool down cannot hang.**  From any state in which the pool
may be serving, with any commands left in the pipes, in every interleaving:
where no process can take a step, the parent is through with its calls of
`waitpid` and all `num` children have exited.  And a child's read returns
end-of-file only where its pipe is empty and no process has a write end of
it. -/
theorem shutdown_completes (h : (shutdown num cap).Reachable s) :
    ((∀ s', ¬(shutdown num cap).step s s') →
      s.parent = .returned ∧ s.forked = num ∧ ∀ j < num, (s.children j).pc = .exited) ∧
      ∀ j < s.forked, ∀ s', childStep s j = some s' → (s.children j).pc = .wait →
        (s'.children j).pc = .quit → s.pipes j = [] ∧ ¬s.Held (.write j) := by
  obtain ⟨he, hf, hc⟩ := shutdown_invariant h
  refine ⟨fun hstuck => ?_, fun j hj s' hstep hpc hquit => eof he hj hpc hstep hquit⟩
  have hcounts := he.counts
  unfold Counts at hcounts
  have hchild : ∀ j < s.forked, childStep s j = none := fun j hj =>
    Option.eq_none_iff_forall_ne_some.2 fun s' hs' => hstuck s' (.child j hj hs')
  have hparent : parentStep num cap .go s = none :=
    Option.eq_none_iff_forall_ne_some.2 fun s' hs' => hstuck s' (.parent .go hs')
  cases hpc : s.parent with
  | loop | fork | father | serve | aborted | killed =>
    rw [hpc] at hc
    exact hc.elim
  | closeSlot k =>
    unfold parentStep at hparent
    simp only [hpc] at hparent
    split at hparent <;> cases hparent
  | waitSlot k =>
    rw [hpc] at hcounts
    obtain ⟨hslots, hforked, -⟩ := hcounts
    have hexit := all_exited he hf (by unfold State.closed; rw [hpc]) (by rw [hpc]; rfl) hchild
    unfold parentStep at hparent
    simp only [hpc] at hparent
    split at hparent
    · rename_i slot hslot
      obtain ⟨hk, -⟩ := List.getElem?_eq_some_iff.1 hslot
      have hpid : slot.1 = k := he.slot k slot.1 slot.2 hslot
      have hended : (s.children slot.1).pc.ended := by
        rw [hpid]
        exact .inl (hexit k (by omega))
      rw [if_pos hended] at hparent
      cases hparent
    · cases hparent
  | returned =>
    rw [hpc] at hcounts
    obtain ⟨hslots, hforked, -⟩ := hcounts
    have hexit := all_exited he hf (by unfold State.closed; rw [hpc]) (by rw [hpc]; rfl) hchild
    exact ⟨rfl, hforked, fun j hj => hexit j (hforked ▸ hj)⟩

/-- Nobody takes a step behind the end: `main` has returned, and a child that
has exited is gone. -/
theorem ended_stuck (hparent : s.parent = .returned)
    (hexit : ∀ j < s.forked, (s.children j).pc = .exited) : ¬Step num cap s s' := by
  rintro (⟨choice, hp⟩ | ⟨j, hj, hc⟩)
  · unfold parentStep at hp
    rw [hparent] at hp
    cases hp
  · unfold childStep at hc
    simp only [hexit j hj] at hc
    cases hc

end shutdown

/-- A pool of two in which a command is sent to the first child. -/
def oneCommand : List Move :=
  [.parent .go, .parent .go, .parent .go, .parent .go, .parent .go, .parent .go, .parent .go,
    .parent (.send 0 3)]

/-- The parent closes both slots.  Child 0 runs its command and then waits,
since child 1 has a write end of its pipe; it ends once child 1 has ended. -/
def twoExits : List Move :=
  [.child 0, .parent .go, .parent .go, .parent .go, .child 0, .child 0, .child 1, .child 1,
    .child 1, .child 0, .child 0, .parent .go, .parent .go, .parent .go]

/-- The last state of the run is one in which nobody can take a step, and it is
the end: both children have exited. -/
theorem shutdown_completes_two : ∃ s, (shutdown 2 8).Reachable s ∧
    (∀ s', ¬(shutdown 2 8).step s s') ∧ s.log 0 = [.read 3, .ran .save] ∧
    s.parent = .returned ∧ s.forked = 2 ∧ ∀ j < 2, (s.children j).pc = .exited := by
  obtain ⟨s₀, h₀, hserve, hrun⟩ : ∃ s₀, replay 2 8 oneCommand .new = some s₀ ∧ s₀.parent = .serve ∧
      ∃ s, replay 2 8 twoExits { s₀ with parent := .closeSlot 0 } = some s ∧
        s.log 0 = [.read 3, .ran .save] ∧ s.parent = .returned ∧ s.forked = 2 ∧
        (s.children 0).pc = .exited ∧ (s.children 1).pc = .exited :=
    ⟨_, rfl, rfl, _, rfl, rfl, rfl, rfl, rfl, rfl⟩
  obtain ⟨s, hs, hlog, hparent, hforked, hzero, hone⟩ := hrun
  have hsys : (sys 2 8).Reachable s₀ := replay_reachable rfl oneCommand (.init rfl) h₀
  have hreach : (shutdown 2 8).Reachable s :=
    replay_reachable rfl twoExits (.init ⟨s₀, hsys, hserve, rfl⟩) hs
  have hstuck : ∀ s', ¬(shutdown 2 8).step s s' := by
    refine fun s' => ended_stuck hparent fun j hj => ?_
    rw [hforked] at hj
    rcases Nat.lt_succ_iff_lt_or_eq.1 hj with hj | rfl
    · obtain rfl := Nat.lt_one_iff.1 hj
      exact hzero
    · exact hone
  exact ⟨s, hreach, hstuck, hlog, (shutdown_completes hreach).1 hstuck⟩

end ProcessPool
end OSNetWorkCode
