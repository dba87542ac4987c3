/-
# What each connection gets back

All children write into one log here, in any order.  What concerns one
connection in it (`onConn`) is the work of the child made for it, and a list of
rounds: a piece read, and the string of it handed to `write`; behind the last
round there may be a piece without its answer, while the child is at `write` or
if SIGPIPE has met it there.  `Spoken` says which at every place of a child,
and `Spoke` is the invariant.

It stands on `Ends`: a child's descriptor is its own connection, and no other
child has that one.  The rounds, and the law of zero bytes, are those of the
server with the pool.
-/

import OSNetWorkCode.ForkServer.Descriptors
import OSNetWorkCode.TcpServer.Echo

namespace OSNetWorkCode
namespace ForkServer

open CString
open TcpServer (Buffer Event fill round received written Complete)

variable {base : Start} {s s' : State} {c : ℕ}

/-- What is read or written on the connection. -/
def on (c : ℕ) : Event → Bool
  | .read c' _ | .wrote c' _ _ => c' = c
  | _ => false

/-- What happened on a connection, whoever did it. -/
def onConn (c : ℕ) (log : List (ℕ × Event)) : List Event := (log.map Prod.snd).filter (on c)

/-- What happens on a connection comes behind what happened on it before. -/
theorem onConn_append (c : ℕ) (log es : List (ℕ × Event)) :
    onConn c (log ++ es) = onConn c log ++ onConn c es := by
  simp [onConn]

/-- Nothing that concerns another connection is kept. -/
theorem onConn_eq_nil {log : List (ℕ × Event)} (h : ∀ p ∈ log, on c p.2 = false) :
    onConn c log = [] := by
  rw [onConn, List.filter_eq_nil_iff]
  intro e he
  obtain ⟨p, hp, rfl⟩ := List.mem_map.1 he
  exact Bool.eq_false_iff.1 (h p hp)

/-- What a child has said on its connection when it comes to a place. -/
inductive Spoken (c : ℕ) : ChildPc → List Event → Prop
  | start : Spoken c .start []
  | service : Spoken c .service []
  | read (buffer : Buffer) (rounds : List (List UInt8 × Option ℕ)) :
    Spoken c (.read buffer) (rounds.flatMap (round c))
  | write {buffer : Buffer} {bytes : List UInt8} (rounds : List (List UInt8 × Option ℕ))
    (hzero : 0 ∈ buffer.1) (htext : text buffer.1 = text bytes) :
    Spoken c (.write buffer) (rounds.flatMap (round c) ++ [.read c bytes])
  | exit (rounds : List (List UInt8 × Option ℕ)) : Spoken c .exit (rounds.flatMap (round c))
  | exited (rounds : List (List UInt8 × Option ℕ)) : Spoken c .exited (rounds.flatMap (round c))
  | killed (rounds : List (List UInt8 × Option ℕ)) (bytes : List UInt8) :
    Spoken c .killed (rounds.flatMap (round c) ++ [.read c bytes])

/-- **A step of a child goes on with the rounds,** and concerns no other
connection.  Its descriptor stands for its own, at every place where it reads
or writes. -/
theorem ChildStep.spoken {j : ℕ} {child : Child} {es : List (ℕ × Event)} {vs : List Event}
    (h : ChildStep s j child es) (hends : ChildEnds base c (s.children j))
    (hspoken : Spoken c (s.children j).pc vs) :
    Spoken c child.pc (vs ++ onConn c es) ∧
      ∀ p ∈ es, p.1 = j ∧ ∀ c', on c' p.2 = true → c' = c := by
  -- at `read` and at `write` the descriptor is the child's connection
  have hown : (s.children j).pc.table base c = serving base c →
      (s.children j).table.get (s.children j).serviceSock = some (.conn c) := fun hpc => by
    rw [hends.table, hends.serviceSock, hpc, get_serving, if_pos rfl]
  have hnil : onConn c [] = [] := rfl
  cases h with
  | start hpc =>
    rw [hpc] at hspoken
    cases hspoken
    exact ⟨.service, nofun⟩
  | service hpc =>
    rw [hpc] at hspoken
    cases hspoken
    exact ⟨.read _ [], nofun⟩
  | @read buffer c' bytes fits hpc hfile =>
    rw [hown (by rw [hpc]; rfl)] at hfile
    obtain rfl := File.conn.inj (Option.some.inj hfile)
    rw [hpc] at hspoken
    cases hspoken with
    | read _ rounds =>
      refine ⟨?_, by simp [on]⟩
      have hes : onConn c [(j, .read c bytes)] = [.read c bytes] := by simp [onConn, on]
      rw [hes]
      exact .write rounds (TcpServer.zero_mem_fill bytes fits)
        (TcpServer.text_fill buffer bytes fits)
  | readOther hpc hfile =>
    rw [hown (by rw [hpc]; rfl)] at hfile
    cases hfile
  | hungUp hpc =>
    rw [hpc] at hspoken
    rw [hnil, List.append_nil]
    cases hspoken with
    | read _ rounds => exact ⟨.exit rounds, nofun⟩
  | @write buffer n c' r hpc hlen hfile =>
    rw [hown (by rw [hpc]; rfl)] at hfile
    obtain rfl := File.conn.inj (Option.some.inj hfile)
    rw [hpc] at hspoken
    cases hspoken with
    | @write _ bytes rounds hzero htext =>
      refine ⟨?_, by simp [on]⟩
      have hes : onConn c [(j, .wrote c (buffer.1.take n) r)] = [.wrote c (text bytes) r] := by
        rw [take_strlen hlen, htext]
        simp [onConn, on]
      have hround : rounds.flatMap (round c) ++ [.read c bytes] ++ [.wrote c (text bytes) r] =
          (rounds ++ [(bytes, r)]).flatMap (round c) := by
        simp [TcpServer.round]
      rw [hes, hround]
      exact .read buffer _
  | writeOther hpc hfile => exact absurd (hown (by rw [hpc]; rfl)) (hfile c)
  | undefined hpc hlen =>
    rw [hpc] at hspoken
    cases hspoken with
    | write rounds hzero =>
      unfold strlen at hlen
      rw [if_pos hzero] at hlen
      cases hlen
  | exit hpc =>
    rw [hpc] at hspoken
    rw [hnil, List.append_nil]
    cases hspoken with
    | exit rounds => exact ⟨.exited rounds, nofun⟩
  | killed hpc =>
    rw [hpc] at hspoken
    rw [hnil, List.append_nil]
    cases hspoken with
    | @write _ bytes rounds => exact ⟨.killed rounds bytes, nofun⟩

/-! ### The invariant -/

/-- Each child has spoken on its own connection, and only there. -/
structure Spoke (s : State) : Prop where
  own : ∀ p ∈ s.log, p.1 < s.forked ∧
    ∀ c, on c p.2 = true → (s.children p.1).file = some (.conn c)
  child : ∀ j < s.forked, ∀ c, (s.children j).file = some (.conn c) →
    Spoken c (s.children j).pc (onConn c s.log)

/-- Where no child was made for the connection nothing happened on it: what
happened is always some child's doing. -/
theorem Spoke.onConn_eq_nil (h : Spoke s)
    (hnone : ∀ j < s.forked, (s.children j).file ≠ some (.conn c)) : onConn c s.log = [] := by
  refine ForkServer.onConn_eq_nil fun p hp => ?_
  obtain ⟨hlt, hfile⟩ := h.own p hp
  exact Bool.eq_false_iff.2 fun hon => hnone p.1 hlt (hfile c hon)

/-- The parent reads and writes on no connection, and a new child has said
nothing yet: the connection at hand is newer than those of all children
before. -/
theorem ParentStep.spoke (h : ParentStep s s') (he : Ends base s) (hspoke : Spoke s) :
    Spoke s' := by
  cases h with
  | missed | accept | dropped | close => exact ⟨hspoke.own, hspoke.child⟩
  | fork hpc =>
    constructor
    · intro p hp
      obtain ⟨hlt, hfile⟩ := hspoke.own p hp
      refine ⟨Nat.lt_succ_of_lt hlt, fun c hon => ?_⟩
      have hne : p.1 ≠ s.forked := Nat.ne_of_lt hlt
      show (Function.update s.children s.forked _ p.1).file = _
      rw [Function.update_of_ne hne]
      exact hfile c hon
    · refine FdTable.forall_forked (P := fun _ (x : Child) => ∀ c, x.file = some (.conn c) →
        Spoken c x.pc (onConn c s.log)) hspoke.child fun c hfile => ?_
      rw [hspoke.onConn_eq_nil fun j hj hold => ?_]
      · exact .start
      -- a connection that is at hand has no child yet
      · have hparent := he.parent
        rw [hpc] at hparent
        obtain ⟨rfl, c', hn, htable⟩ := hparent
        obtain ⟨c'', hlt, hfile', -⟩ := he.child j hj
        unfold State.offered at hlt
        rw [hpc, hn] at hlt
        have hsome : s.table.get (serviceNo base) = some (.conn c) := hfile
        rw [htable, get_atHand_eq_conn] at hsome
        rw [hold] at hfile'
        obtain rfl := File.conn.inj (Option.some.inj hfile')
        exact absurd hlt (by simp [hsome.2])

/-- **In every reachable state each child has spoken on its own connection, and
only there.**  Two children never share one, so what one of them says is
silence on the others' connections. -/
theorem spoke (hs : (sys base).Reachable s) : Spoke s := by
  refine hs.invariant ?_ ?_
  · rintro s ⟨listenSock, table, -, rfl⟩
    exact ⟨nofun, nofun⟩
  · rintro s s' hreach hspoke ⟨a, -, hstep⟩
    have he := ends hreach
    rcases step_cases hstep with h | ⟨j, hj, child, es, rfl, h⟩
    · exact h.spoke he hspoke
    · obtain ⟨c, -, hfile, hends⟩ := he.child j hj
      obtain ⟨hsame, -⟩ := h.ends he.listen hends
      obtain ⟨hspoken, hes⟩ := h.spoken hends (hspoke.child j hj c hfile)
      have hfiles := file_update hsame
      constructor
      · intro p hp
        show p.1 < s.forked ∧ ∀ c, _ → (Function.update s.children j child p.1).file = _
        rw [hfiles]
        rcases List.mem_append.1 hp with hp | hp
        · exact hspoke.own p hp
        · obtain ⟨hj', hon⟩ := hes p hp
          refine ⟨hj' ▸ hj, fun c' hc' => ?_⟩
          rw [hj', hon c' hc']
          exact hfile
      · refine FdTable.forall_children (P := fun _ (x : Child) =>
          ∀ c, x.file = some (.conn c) → Spoken c x.pc (onConn c (s.log ++ es)))
          (fun k hk hne c' hc' => ?_) fun c' hc' => ?_
        -- another child's connection is another one
        · have hquiet : onConn c' es = [] := ForkServer.onConn_eq_nil fun p hp =>
            Bool.eq_false_iff.2 fun hon => by
              obtain rfl := (hes p hp).2 c' hon
              exact hne (he.once k hk j hj (hc'.trans hfile.symm))
          rw [onConn_append, hquiet, List.append_nil]
          exact hspoke.child k hk c' hc'
        · rw [hsame, hfile] at hc'
          obtain rfl := File.conn.inj (Option.some.inj hc')
          rw [onConn_append]
          exact hspoken

/-- **Each connection gets its own bytes back, from one child.**  In every
reachable state no child has read past its buffer; whatever was read or written
on a connection was by the child made for it; it is a list of rounds, in each
of which a piece was read and its string handed to `write`, and at most one
piece behind them; and where the child has ended of its own accord and all
writes were complete, the bytes written are the bytes read just if none of them
is zero. -/
theorem own_bytes_back (hs : (sys base).Reachable s) :
    (∀ j < s.forked, (s.children j).pc ≠ .undefined) ∧
    (∀ p ∈ s.log, ∀ c, on c p.2 = true → (s.children p.1).file = some (.conn c)) ∧
    (∀ c, ∃ (rounds : List (List UInt8 × Option ℕ)) (pending : List Event),
      onConn c s.log = rounds.flatMap (round c) ++ pending ∧
      (pending = [] ∨ ∃ bytes, pending = [.read c bytes])) ∧
    ∀ j < s.forked, ∀ c, (s.children j).file = some (.conn c) → (s.children j).pc = .exited →
      Complete (onConn c s.log) → (written c (onConn c s.log) = received c (onConn c s.log) ↔
        0 ∉ received c (onConn c s.log)) := by
  have hspoke := spoke hs
  refine ⟨fun j hj hpc => ?_, fun p hp => (hspoke.own p hp).2, fun c => ?_, ?_⟩
  · obtain ⟨c, -, hfile, -⟩ := (ends hs).child j hj
    have hspoken := hspoke.child j hj c hfile
    rw [hpc] at hspoken
    cases hspoken
  · by_cases hchild : ∃ j < s.forked, (s.children j).file = some (.conn c)
    · obtain ⟨j, hj, hfile⟩ := hchild
      generalize hvs : onConn c s.log = vs
      have hspoken := hspoke.child j hj c hfile
      rw [hvs] at hspoken
      generalize (s.children j).pc = pc at hspoken
      cases hspoken with
      | start | service => exact ⟨[], [], rfl, .inl rfl⟩
      | read _ rounds | exit rounds | exited rounds =>
        exact ⟨rounds, [], (List.append_nil _).symm, .inl rfl⟩
      | write rounds | killed rounds => exact ⟨rounds, _, rfl, .inr ⟨_, rfl⟩⟩
    · refine ⟨[], [], hspoke.onConn_eq_nil fun j hj hfile => ?_, .inl rfl⟩
      exact hchild ⟨j, hj, hfile⟩
  · intro j hj c hfile hpc hcomplete
    have hspoken := hspoke.child j hj c hfile
    rw [hpc] at hspoken
    generalize onConn c s.log = vs at hspoken hcomplete
    cases hspoken with
    | exited rounds =>
      rw [← TcpServer.written_closed, ← TcpServer.received_closed]
      refine TcpServer.written_eq_iff fun c' bytes r hmem => ?_
      refine hcomplete c' bytes r ?_
      simpa using hmem

/-- `"hi"` comes back, the client closes, and the child ends. -/
theorem own_bytes_back_hi : ∃ s, (sys fromTerminal).Reachable s ∧
    onConn 0 s.log = [.read 0 [104, 105], .wrote 0 [104, 105] (some 2)] ∧
    written 0 (onConn 0 s.log) = received 0 (onConn 0 s.log) := by
  have h₀ : (sys fromTerminal).Reachable (.new 3 (fromTerminal.1.openLowest .listen)) :=
    .init ⟨_, _, rfl, rfl⟩
  have h₁ := h₀.next (a := .parent .go) rfl
  have h₂ := h₁.next (a := .parent .go) rfl
  have h₃ := h₂.next (a := .child 0 .go) rfl
  have h₄ := h₃.next (a := .child 0 (.stack
    ⟨List.replicate TcpServer.serviceSize 0, List.length_replicate⟩)) rfl
  have h₅ := h₄.next (a := .child 0 (.read (.data [104, 105] (by decide) (by decide)))) rfl
  have h₆ := h₅.next (a := .child 0 (.write (some 2))) rfl
  have h₇ := h₆.next (a := .child 0 (.read .eof)) rfl
  have h₈ := h₇.next (a := .child 0 .go) rfl
  obtain ⟨s, hs, hforked, hfile, hpc, hconn⟩ : ∃ s, (sys fromTerminal).Reachable s ∧
      s.forked = 1 ∧ (s.children 0).file = some (.conn 0) ∧ (s.children 0).pc = .exited ∧
      onConn 0 s.log = [.read 0 [104, 105], .wrote 0 [104, 105] (some 2)] :=
    ⟨_, h₈, rfl, rfl, rfl, rfl⟩
  refine ⟨s, hs, hconn, ?_⟩
  have hlaw := (own_bytes_back hs).2.2.2 0 (by rw [hforked]; decide) 0 hfile hpc
  rw [hconn] at hlaw ⊢
  refine (hlaw fun c bytes r hmem => ?_).2 (by decide)
  simp only [List.mem_cons, reduceCtorEq, TcpServer.Event.wrote.injEq, List.not_mem_nil, or_false,
    false_or] at hmem
  obtain ⟨-, rfl, rfl⟩ := hmem
  rfl

end ForkServer
end OSNetWorkCode
