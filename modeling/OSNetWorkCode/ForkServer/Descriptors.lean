/-
# Who has which connection open

The parent opens a connection, copies its table into the child and closes the
connection; the child closes the listening socket.  `Ends` says what each table
comes to at every place: the parent's is the one it has started with, and the
connection at hand under the lowest number free in it, which is therefore the
same number for all connections; a child's is the one the server was started
with, and its own connection under that number, and it has the listening socket
until its first step.

So a connection is open while it is at hand or its child lives (`open_iff`),
nothing of it stays behind in the parent, and no child can reach another one's
connection.  All tables are described by what `get` gives; a table that was
opened and closed again need not be the same list.
-/

import OSNetWorkCode.ForkServer.Model

namespace OSNetWorkCode
namespace ForkServer

variable {base : Start} {s s' : State}

/-- The parent's table when nothing is at hand. -/
def listening (base : Start) : FdTable File := base.1.openLowest .listen

/-- The number of every connection. -/
def serviceNo (base : Start) : ℕ := (listening base).lowest

/-- The parent's table when connection `c` is at hand. -/
def atHand (base : Start) (c : ℕ) : FdTable File := (listening base).openLowest (.conn c)

/-- A child's table when it has closed the listening socket. -/
def serving (base : Start) (c : ℕ) : FdTable File := base.1.put (serviceNo base) (.conn c)

/-- A connection does not get the number of the listening socket, which is
taken while the parent listens. -/
theorem serviceNo_ne (base : Start) : serviceNo base ≠ base.1.lowest := fun heq => by
  have hfree : (listening base).get (serviceNo base) = none := FdTable.get_lowest _
  rw [heq, listening, FdTable.get_openLowest, if_pos rfl] at hfree
  cases hfree

/-- What the parent has open when a connection is at hand. -/
theorem get_atHand (base : Start) (c fd : ℕ) : (atHand base c).get fd =
    if fd = serviceNo base then some (.conn c) else (listening base).get fd :=
  FdTable.get_openLowest ..

/-- What a child has open while it serves. -/
theorem get_serving (base : Start) (c fd : ℕ) : (serving base c).get fd =
    if fd = serviceNo base then some (.conn c) else base.1.get fd :=
  FdTable.get_put ..

/-- Closing the connection at hand leads back to what was open before it was
accepted. -/
theorem get_atHand_close (base : Start) (c fd : ℕ) :
    ((atHand base c).close (serviceNo base)).get fd = (listening base).get fd := by
  rw [FdTable.get_close, get_atHand]
  split_ifs with h
  · rw [h]
    exact (FdTable.get_lowest _).symm
  · rfl

/-- **Closing the listening socket** leaves the connection.  The number freed
is lower than the connection's, and nothing is opened after it. -/
theorem get_atHand_close_listen (base : Start) (c fd : ℕ) :
    ((atHand base c).close base.1.lowest).get fd = (serving base c).get fd := by
  rw [FdTable.get_close, get_atHand, get_serving, listening, FdTable.get_openLowest]
  by_cases hlisten : fd = base.1.lowest
  · have hne : fd ≠ serviceNo base := fun h => serviceNo_ne base (h.symm.trans hlisten)
    rw [if_pos hlisten, if_neg hne, hlisten]
    exact (FdTable.get_lowest _).symm
  · rw [if_neg hlisten, if_neg hlisten]

/-- No file that was open before is a connection. -/
theorem Start.get_ne_conn (base : Start) (fd c : ℕ) : base.1.get fd ≠ some (.conn c) := fun h => by
  cases base.2 fd _ h

/-- When nothing is at hand the parent has no connection open, only the
listening socket and what was open before. -/
theorem get_listening_ne_conn (base : Start) (fd c : ℕ) :
    (listening base).get fd ≠ some (.conn c) := by
  rw [listening, FdTable.get_openLowest]
  split_ifs
  · nofun
  · exact base.get_ne_conn fd c

/-- The connection at hand is the only one the parent has open, and under one
number. -/
theorem get_atHand_eq_conn {c c' fd : ℕ} :
    (atHand base c).get fd = some (.conn c') ↔ fd = serviceNo base ∧ c' = c := by
  rw [get_atHand]
  split_ifs with h
  · simp [h, eq_comm]
  · simp [h, get_listening_ne_conn]

/-- A child that serves has one connection open, its own, and under one
number. -/
theorem get_serving_eq_conn {c c' fd : ℕ} :
    (serving base c).get fd = some (.conn c') ↔ fd = serviceNo base ∧ c' = c := by
  rw [get_serving]
  split_ifs with h
  · simp [h, eq_comm]
  · simp [h, Start.get_ne_conn]

/-! ### The invariant -/

/-- The table of the child of connection `c` at a place. -/
def ChildPc.table (base : Start) (c : ℕ) : ChildPc → FdTable File
  | .start => atHand base c
  | .exited | .killed => .empty
  | _ => serving base c

/-- What the child of a connection is. -/
structure ChildEnds (base : Start) (c : ℕ) (child : Child) : Prop where
  serviceSock : child.serviceSock = serviceNo base
  table : ∀ fd, child.table.get fd = (child.pc.table base c).get fd

/-- The connection that the parent has open. -/
def State.AtHand (s : State) (c : ℕ) : Prop :=
  c + 1 = s.accepted ∧ match s.parent with
    | .accept => False
    | .fork _ | .close _ => True

/-- What the parent has open. -/
def ParentEnds (base : Start) (table : FdTable File) (accepted : ℕ) : ParentPc → Prop
  | .accept => ∀ fd, table.get fd = (listening base).get fd
  | .fork serviceSock | .close serviceSock => serviceSock = serviceNo base ∧
    ∃ c, accepted = c + 1 ∧ ∀ fd, table.get fd = (atHand base c).get fd

/-- How many connections may have a child. -/
def State.offered (s : State) : ℕ :=
  match s.parent with
  | .fork _ => s.accepted - 1
  | _ => s.accepted

/-- What every process has open. -/
structure Ends (base : Start) (s : State) : Prop where
  listen : s.listenSock = base.1.lowest
  parent : ParentEnds base s.table s.accepted s.parent
  child : ∀ j < s.forked, ∃ c < s.offered, (s.children j).file = some (.conn c) ∧
    ChildEnds base c (s.children j)
  once : ∀ j < s.forked, ∀ k < s.forked, (s.children j).file = (s.children k).file → j = k

/-! ### Its steps -/

/-- When the server begins to listen it has no connection open, and no
child. -/
theorem ends_new {listenSock : ℕ} {table : FdTable File}
    (h : initServer true true true base.1 = .ok (listenSock, table)) :
    Ends base (.new listenSock table) := by
  obtain ⟨rfl, rfl⟩ := Prod.mk.inj (Except.ok.inj h)
  exact ⟨rfl, fun _ => rfl, nofun, nofun⟩

/-- **Each step of the parent keeps what every process has open.**  A `fork`
copies the table, the next connection gets the same number again, and a failed
`fork` closes it unserved. -/
theorem ParentStep.ends (h : ParentStep s s') (he : Ends base s) : Ends base s' := by
  obtain ⟨hlisten, hparent, hchild, honce⟩ := he
  cases h with
  | missed => exact ⟨hlisten, hparent, hchild, honce⟩
  | accept hpc =>
    rw [hpc] at hparent
    have hlowest : s.table.lowest = serviceNo base := FdTable.lowest_congr hparent
    refine ⟨hlisten, ⟨hlowest, s.accepted, rfl, fun fd => ?_⟩, fun j hj => ?_, honce⟩
    · rw [FdTable.get_openLowest, hlowest, get_atHand, hparent]
    · obtain ⟨c, hc, hends⟩ := hchild j hj
      unfold State.offered at hc
      rw [hpc] at hc
      exact ⟨c, hc, hends⟩
  | fork hpc =>
    rw [hpc] at hparent
    obtain ⟨rfl, c, hn, htable⟩ := hparent
    have hoffered : s.offered = c := by
      unfold State.offered
      rw [hpc, hn]
      rfl
    have hfile : s.table.get (serviceNo base) = some (.conn c) := by
      rw [htable, get_atHand, if_pos rfl]
    have hnot : ∀ j < s.forked, (s.children j).file ≠ some (.conn c) := fun j hj heq => by
      obtain ⟨c', hc', hfile', -⟩ := hchild j hj
      rw [hfile'] at heq
      obtain rfl := File.conn.inj (Option.some.inj heq)
      omega
    refine ⟨hlisten, ⟨rfl, c, hn, htable⟩, ?_, ?_⟩
    · refine FdTable.forall_forked (P := fun _ (x : Child) => ∃ c < s.accepted,
        x.file = some (.conn c) ∧ ChildEnds base c x) (fun j hj => ?_)
        ⟨c, by omega, hfile, rfl, htable⟩
      obtain ⟨c', hc', hends⟩ := hchild j hj
      exact ⟨c', by omega, hends⟩
    · refine FdTable.forall_forked (P := fun j (x : Child) => ∀ k < s.forked + 1,
        x.file = (Function.update s.children s.forked _ k).file → j = k) (fun j hj => ?_) ?_
      · refine FdTable.forall_forked
          (P := fun k (y : Child) => (s.children j).file = y.file → j = k)
          (fun k hk => honce j hj k hk) fun heq => absurd (heq.trans hfile) (hnot j hj)
      · refine FdTable.forall_forked
          (P := fun k (y : Child) => s.table.get (serviceNo base) = y.file → s.forked = k)
          (fun k hk heq => absurd (heq.symm.trans hfile) (hnot k hk)) fun _ => rfl
  | dropped hpc =>
    rw [hpc] at hparent
    refine ⟨hlisten, hparent, fun j hj => ?_, honce⟩
    obtain ⟨c, hc, hends⟩ := hchild j hj
    unfold State.offered at hc
    rw [hpc] at hc
    exact ⟨c, Nat.lt_of_lt_of_le hc (Nat.sub_le _ _), hends⟩
  | close hpc =>
    rw [hpc] at hparent
    obtain ⟨rfl, c, hn, htable⟩ := hparent
    refine ⟨hlisten, fun fd => ?_, fun j hj => ?_, honce⟩
    · rw [FdTable.get_close, htable, ← FdTable.get_close, get_atHand_close]
    · obtain ⟨c', hc', hends⟩ := hchild j hj
      unfold State.offered at hc'
      rw [hpc] at hc'
      exact ⟨c', hc', hends⟩

/-- A child's step keeps its descriptors what they are to be at its place.  Its
exit closes all of them. -/
theorem ChildStep.ends {j c : ℕ} {child : Child} {es : List (ℕ × TcpServer.Event)}
    (h : ChildStep s j child es) (hlisten : s.listenSock = base.1.lowest)
    (he : ChildEnds base c (s.children j)) :
    child.file = (s.children j).file ∧ ChildEnds base c child := by
  obtain ⟨hsock, htable⟩ := he
  cases h with
  | start hpc =>
    refine ⟨rfl, hsock, fun fd => ?_⟩
    rw [hpc] at htable
    show ((s.children j).table.close s.listenSock).get fd = (serving base c).get fd
    rw [← get_atHand_close_listen, hlisten, FdTable.get_close, htable, ← FdTable.get_close]
    rfl
  | service hpc | read hpc | readOther hpc | hungUp hpc | write hpc | writeOther hpc
  | undefined hpc =>
    refine ⟨rfl, hsock, fun fd => ?_⟩
    rw [hpc] at htable
    exact htable fd
  | exit | killed => exact ⟨rfl, hsock, fun fd => rfl⟩

/-- A child that goes on keeps its connection, so that all children have those
they had. -/
theorem file_update {j : ℕ} {child : Child} (hsame : child.file = (s.children j).file) (k : ℕ) :
    (Function.update s.children j child k).file = (s.children k).file :=
  (Function.forall_update_iff s.children fun k x => x.file = (s.children k).file).2
    ⟨hsame, fun _ _ => rfl⟩ k

/-- **In every reachable state every process has open what its place says.**
The parent's steps are those of `ParentStep.ends`; a child's change its own
table and nothing else. -/
theorem ends (hs : (sys base).Reachable s) : Ends base s := by
  refine hs.invariant ?_ ?_
  · rintro s ⟨listenSock, table, hinit, rfl⟩
    exact ends_new hinit
  · rintro s s' - he ⟨a, -, hstep⟩
    rcases step_cases hstep with h | ⟨j, hj, child, es, rfl, h⟩
    · exact h.ends he
    · obtain ⟨hlisten, hparent, hchild, honce⟩ := he
      obtain ⟨c, hc, hfile, hends⟩ := hchild j hj
      obtain ⟨hsame, hends'⟩ := h.ends hlisten hends
      have hfiles := file_update hsame
      refine ⟨hlisten, hparent, ?_, fun k hk l hl heq => honce k hk l hl ?_⟩
      · exact FdTable.forall_children (P := fun _ (x : Child) => ∃ c < s.offered,
          x.file = some (.conn c) ∧ ChildEnds base c x) (fun k hk _ => hchild k hk)
          ⟨c, hc, hsame.trans hfile, hends'⟩
      · exact (hfiles k).symm.trans (heq.trans (hfiles l))

/-! ### Which connections are open -/

/-- Some process has the connection open. -/
def State.Open (s : State) (c : ℕ) : Prop :=
  s.table.Holds (.conn c) ∨ ∃ j < s.forked, (s.children j).table.Holds (.conn c)

/-- The child lives that was made for the connection. -/
def State.Served (s : State) (c : ℕ) : Prop :=
  ∃ j < s.forked, (s.children j).file = some (.conn c) ∧ ¬(s.children j).pc.Ended

/-- **The parent has a connection open while it is at hand,** from `accept` to
`close(serviceSock)`, and no other one. -/
theorem ParentEnds.holds_iff {c : ℕ} (h : ParentEnds base s.table s.accepted s.parent) :
    s.table.Holds (.conn c) ↔ s.AtHand c := by
  unfold FdTable.Holds State.AtHand
  cases hpc : s.parent with
  | accept =>
    rw [hpc] at h
    refine iff_of_false ?_ fun h => h.2
    rintro ⟨fd, hfd⟩
    exact get_listening_ne_conn base fd c ((h fd).symm.trans hfd)
  | fork | close =>
    rw [hpc] at h
    obtain ⟨-, c', hn, htable⟩ := h
    simp [htable, get_atHand_eq_conn, hn]

/-- A child has its own connection open while it lives, and no other. -/
theorem ChildEnds.holds_iff {c c' : ℕ} {child : Child} (h : ChildEnds base c child) :
    child.table.Holds (.conn c') ↔ c' = c ∧ ¬child.pc.Ended := by
  unfold FdTable.Holds
  simp only [h.table]
  cases hpc : child.pc with
  | start => simp [ChildPc.table, ChildPc.Ended, get_atHand_eq_conn]
  | exited | killed => simp [ChildPc.table, ChildPc.Ended]
  | service | read | write | exit | undefined =>
    simp [ChildPc.table, ChildPc.Ended, get_serving_eq_conn]

/-- **A connection is open while the parent has it at hand or its child
lives.**  So it is closed for its peer when both are through with it. -/
theorem open_iff (hs : (sys base).Reachable s) (c : ℕ) : s.Open c ↔ s.AtHand c ∨ s.Served c := by
  have he := ends hs
  refine or_congr he.parent.holds_iff (exists_congr fun j => and_congr_right fun hj => ?_)
  obtain ⟨c', -, hfile, hends⟩ := he.child j hj
  rw [hends.holds_iff, hfile]
  simp [eq_comm]

/-- **No connection is left open or reached by another's child.**  In every
reachable state, whatever the processes did and in whatever order: between two
connections the parent has open what it had when it began to listen; all
connections have the same number, in the parent and in the children; a
connection is open just while the parent has it at hand or the child made for
it lives, and there is one child for it at most; and a child that has made its
first step has open what the server was started with and its own connection,
not the listening socket and no other connection. -/
theorem no_connection_left (hs : (sys base).Reachable s) :
    (s.parent = .accept → ∀ fd, s.table.get fd = (listening base).get fd) ∧
    (∀ n, s.parent = .fork n ∨ s.parent = .close n → n = serviceNo base) ∧
    (∀ c, s.Open c ↔ s.AtHand c ∨ s.Served c) ∧
    (∀ j < s.forked, ∀ k < s.forked, (s.children j).file = (s.children k).file → j = k) ∧
    ∀ j < s.forked, ∃ c < s.accepted, (s.children j).file = some (.conn c) ∧
      (s.children j).serviceSock = serviceNo base ∧
      ((s.children j).pc ≠ .start → ¬(s.children j).pc.Ended → ∀ fd, (s.children j).table.get fd =
        if fd = serviceNo base then some (.conn c) else base.1.get fd) := by
  have he := ends hs
  have hparent := he.parent
  refine ⟨fun hpc => ?_, fun n hpc => ?_, open_iff hs, he.once, fun j hj => ?_⟩
  · rw [hpc] at hparent
    exact hparent
  · rcases hpc with hpc | hpc <;> rw [hpc] at hparent <;> exact hparent.1
  · obtain ⟨c, hc, hfile, hends⟩ := he.child j hj
    have hle : s.offered ≤ s.accepted := by
      unfold State.offered
      split
      · exact Nat.sub_le _ _
      · exact Nat.le_refl _
    refine ⟨c, Nat.lt_of_lt_of_le hc hle, hfile, hends.serviceSock, fun hstart hend fd => ?_⟩
    rw [hends.table, ← get_serving]
    cases hpc : (s.children j).pc with
    | start => exact absurd hpc hstart
    | exited | killed => rw [hpc] at hend; exact absurd trivial hend
    | service | read | write | exit | undefined => rfl

/-- A terminal at 0, 1 and 2. -/
def fromTerminal : Start :=
  ⟨[some .other, some .other, some .other], fun fd f h => by
    match fd with
    | 0 | 1 | 2 => cases h; rfl
    | _ + 3 => cases h⟩

/-- The second client is accepted before the child of the first one has made a
step; both connections have the number `4`. -/
theorem no_connection_left_two : ∃ s, (sys fromTerminal).Reachable s ∧
    s.parent = .fork 4 ∧ (s.children 0).serviceSock = 4 ∧ s.Open 0 ∧ s.Open 1 := by
  have h₀ : (sys fromTerminal).Reachable (.new 3 (fromTerminal.1.openLowest .listen)) :=
    .init ⟨_, _, rfl, rfl⟩
  have h₁ := h₀.next (a := .parent .go) rfl
  have h₂ := h₁.next (a := .parent .go) rfl
  have h₃ := h₂.next (a := .parent .go) rfl
  have h₄ := h₃.next (a := .parent .go) rfl
  obtain ⟨-, hnumber, hopen, -, hchild⟩ := no_connection_left h₄
  obtain ⟨c, -, -, hsock, -⟩ := hchild 0 (by decide)
  refine ⟨_, h₄, rfl, hsock.trans (hnumber 4 (.inl rfl)).symm, (hopen 0).2 (.inr ?_),
    (hopen 1).2 (.inl ⟨rfl, trivial⟩)⟩
  exact ⟨0, by decide, rfl, fun h => h.elim⟩

end ForkServer
end OSNetWorkCode
