/-
# Every accepted descriptor has one owner and is closed once

A descriptor is handed from `accept` to the task, from the task to the queue,
and from there to the worker that runs `service` and closes it.  Numbers are
used again as soon as they are closed, and tasks are copied through the queue,
so the question is whether anybody still holds a number that was closed.

The ledger of one number (`ledger`) answers it: each call of the pool and of
the server moves the number from one holder to the next, `accept` opens it for
one holder, and `close` takes it from its holder as it closes it.  So an open
number has exactly one holder, a closed one none, whatever the interleaving
(`owners`); a worker in `service` holds its number, which is open therefore,
and nothing it does is undefined (`not_faulty`).

Connections are numbered in the order of acceptance; `Numbered` says that each
one is open under one descriptor or was closed, once.
-/

import OSNetWorkCode.TcpServer.Model
import OSNetWorkCode.ThreadPool.Tasks

namespace OSNetWorkCode
namespace TcpServer

open CString Net Pthread ThreadPool

variable {T S : Type*}

/-- The descriptor held at a place in the acceptor or in `service`. -/
def Place.socks : Place → List ℕ
  | .link task | .service task | .serviceRead task _ | .serviceWrite task _
  | .serviceClose task => [task.sock]
  | _ => []

/-- The descriptors held by a thread: by the acceptor until its task is in the
queue, by a worker from the queue to `close`. -/
def socks : Pc Task Place → List ℕ
  | .user _ u | .run _ _ u | .pushSignal _ u | .pushUnlock _ u => u.socks
  | .pushPush task _ u => task.sock :: u.socks
  | .routineUnlock task | .routineCall task => task.toList.map Task.sock
  | _ => []

/-- `1` for an open descriptor. -/
def opened (x : Sockets) (sock : ℕ) : ℕ := if (x.conn sock).isSome then 1 else 0

/-- The tasks in the queue that carry the descriptor. -/
def queued (d : Data Task Sockets) (sock : ℕ) : ℕ := (d.taskQueue.map Task.sock).count sock

/-- Opening or closing a number changes whether that number is open, and no
other. -/
theorem opened_update (x : Sockets) (sock sock' : ℕ) (c : Option ℕ) (k : ℕ) :
    opened ⟨Function.update x.conn sock c, k⟩ sock' =
      if sock' = sock then (if c.isSome then 1 else 0) else opened x sock' := by
  by_cases h : sock' = sock
  · subst h
    simp [opened]
  · simp [opened, h]

/-- **The ledger of one descriptor number:** what is held and queued of it is
what is open.  The number goes from hand to hand with the task that carries it,
and is held once all the time. -/
theorem ledger (sock : ℕ) : Ledger (prog (T := T) (S := S) server)
    (fun l => ((socks l).count sock : ℤ)) (fun _ => 0)
    (fun d => (queued d sock : ℤ) - (opened d.user sock : ℤ)) (fun _ => 0) where
  stay {l k} hk hs := by
    generalize hop : prog (T := T) (S := S) server l = o at hk hs
    cases calls hop with
    | pushTask hu =>
      obtain ⟨rfl, rfl⟩ := op_pushTask hu
      cases hk
      rfl
    | exit hu => exact hk.elim
    | start | pushSignal | pushUnlock | routineLock | routineWait | routineUnlock =>
      cases hk
      rfl
    | _ => exact hs.elim
  semWait {l x k intr} h := by cases calls h
  semIntr {l x k k'} h := by cases calls h
  semPost {l x k} h := by cases calls h
  create {l start k} h := by
    cases calls h
    rfl
  act {l f i d d' k evs} h hf := by
    rw [List.sum_map_zero, add_zero]
    cases ThreadPool.access h hf with
    | @user worker u f x u' vs hu hx =>
      cases served hu hx with
      | @accepted sock' peer hnone =>
        by_cases he : sock = sock'
        · subst he
          simp [socks, Place.socks, queued, opened, hnone]
        · simp [socks, Place.socks, queued, opened_update, he, Ne.symm he]
      | @close task c hc =>
        by_cases he : sock = task.sock
        · subst he
          simp [socks, Place.socks, queued, opened, hc]
        · simp [socks, Place.socks, queued, opened_update, he, Ne.symm he]
      | missed | enter | read | hungUp | write => rfl
    | runBegin hu =>
      obtain ⟨rfl, rfl⟩ := op_run hu
      rfl
    | taskReturn hu =>
      obtain rfl := op_ret hu
      rfl
    | push =>
      simp only [socks, queued, List.map_append, List.count_append, List.map_cons, List.map_nil,
        List.count_cons, List.count_nil]
      push_cast
      omega
    | getTask hq =>
      simp only [socks, queued, hq, Option.toList, List.map_cons, List.map_nil, List.count_cons,
        List.count_nil]
      push_cast
      omega
    | runEnd | empty | nonempty | callTask => rfl

/-- Before a `write` the buffer has a terminator. -/
def Place.Terminated : Place → Prop
  | .serviceWrite _ buffer => 0 ∈ buffer.1
  | _ => True

/-- The same for a place of the pool: a thread outside the user code is at no
`write`. -/
def Terminated : Pc Task Place → Prop
  | .user _ u | .run _ _ u | .pushPush _ _ u | .pushSignal _ u | .pushUnlock _ u => u.Terminated
  | _ => True

/-- **Whoever comes to `write` has put the terminator,** by the `read` before
it.  The buffer is its own, so that no lock is needed. -/
theorem terminated : Traced (prog (T := T) (S := S) server) (fun l _ => Terminated l) where
  create {l start k} h := by
    cases calls h
    trivial
  stay {l k ev} hact hk hJ := by
    generalize hop : prog (T := T) (S := S) server l = o at hact hk
    cases calls hop with
    | pushTask hu =>
      obtain ⟨rfl, rfl⟩ := op_pushTask hu
      cases hk
      trivial
    | exit hu => exact hk.elim
    | start | pushSignal | pushUnlock | routineLock | routineWait | routineUnlock =>
      cases hk
      exact hJ
    | _ => exact absurd rfl (hact _)
  act {l f i d d' k ev e} h hf hJ := by
    cases ThreadPool.access h hf with
    | user hu hx =>
      cases served hu hx with
      | @read task buffer c bytes fits hc => exact zero_mem_fill bytes fits
      | _ => trivial
    | runBegin hu =>
      obtain ⟨rfl, rfl⟩ := op_run hu
      trivial
    | runEnd | push => exact hJ
    | _ => trivial

/-- The descriptors held by a thread, asleep or not. -/
def socksOf : Status Mutex Cond (Pc Task Place) → List ℕ
  | .unborn => []
  | .run l | .waiting _ _ l | .woken _ l => socks l

/-- A number is held by a thread as often as by the place where it is or to
which it returns. -/
theorem weight_socks (sock : ℕ) (st : Status Mutex Cond (Pc Task Place)) :
    st.weight (fun l => (socks l).count sock) = (socksOf st).count sock := by
  cases st <;> rfl

/-! ### The numbers of the connections -/

/-- The connections closed, in order. -/
def closed (vs : List Event) : List ℕ :=
  vs.filterMap fun | .closed c => some c | _ => none

/-- What is closed comes behind what was closed before. -/
theorem closed_append (vs vs' : List Event) : closed (vs ++ vs') = closed vs ++ closed vs' :=
  List.filterMap_append ..

/-- Each connection accepted is open under one descriptor, or was closed,
once. -/
structure Numbered (x : Sockets) (vs : List Event) : Prop where
  isOpen : ∀ sock c, x.conn sock = some c → c < x.accepted ∧ c ∉ closed vs
  inj : ∀ sock sock' c, x.conn sock = some c → x.conn sock' = some c → sock = sock'
  isClosed : ∀ c ∈ closed vs, c < x.accepted
  nodup : (closed vs).Nodup
  gone : ∀ c < x.accepted, c ∈ closed vs ∨ ∃ sock, x.conn sock = some c

/-- Where nothing is opened or closed the connections stay numbered.  This is
the case of all steps but `accept` and `close`. -/
theorem Numbered.quiet {x : Sockets} {vs vs' : List Event} (h : Numbered x vs)
    (hvs : closed vs' = []) : Numbered x (vs ++ vs') := by
  have hclosed : closed (vs ++ vs') = closed vs := by rw [closed_append, hvs, List.append_nil]
  constructor
  · rw [hclosed]
    exact h.isOpen
  · exact h.inj
  · rw [hclosed]
    exact h.isClosed
  · rw [hclosed]
    exact h.nodup
  · rw [hclosed]
    exact h.gone

/-- `accept` opens the next connection.  Its descriptor was free, and its
number was not given before. -/
theorem Numbered.accept {x : Sockets} {vs : List Event} (h : Numbered x vs) {sock : ℕ}
    (hnone : x.conn sock = none) :
    Numbered ⟨Function.update x.conn sock (some x.accepted), x.accepted + 1⟩
      (vs ++ [.accepted x.accepted sock]) := by
  have hclosed : closed (vs ++ [.accepted x.accepted sock]) = closed vs := by
    rw [closed_append]
    exact List.append_nil _
  have hnew : x.accepted ∉ closed vs := fun hc => Nat.lt_irrefl _ (h.isClosed _ hc)
  have hlt : ∀ sock' c, x.conn sock' = some c → c < x.accepted := fun sock' c hc =>
    (h.isOpen sock' c hc).1
  constructor
  · intro sock' c hc
    rw [hclosed]
    by_cases he : sock' = sock
    · subst he
      obtain rfl : x.accepted = c := by simpa using hc
      exact ⟨Nat.lt_succ_self _, hnew⟩
    · obtain ⟨hc₁, hc₂⟩ := h.isOpen sock' c (by simpa [he] using hc)
      exact ⟨Nat.lt_succ_of_lt hc₁, hc₂⟩
  · intro s₁ s₂ c h₁ h₂
    by_cases he₁ : s₁ = sock
    · by_cases he₂ : s₂ = sock
      · rw [he₁, he₂]
      · have hc : x.accepted = c := by simpa [he₁] using h₁
        have := hlt s₂ c (by simpa [he₂] using h₂)
        omega
    · by_cases he₂ : s₂ = sock
      · have hc : x.accepted = c := by simpa [he₂] using h₂
        have := hlt s₁ c (by simpa [he₁] using h₁)
        omega
      · exact h.inj s₁ s₂ c (by simpa [he₁] using h₁) (by simpa [he₂] using h₂)
  · rw [hclosed]
    exact fun c hc => Nat.lt_succ_of_lt (h.isClosed c hc)
  · rw [hclosed]
    exact h.nodup
  · intro c hc
    rw [hclosed]
    rcases Nat.lt_succ_iff_lt_or_eq.1 hc with hold | rfl
    · rcases h.gone c hold with hgone | ⟨sock', hsock⟩
      · exact .inl hgone
      · have he : sock' ≠ sock := fun he => by
          rw [he, hnone] at hsock
          cases hsock
        exact .inr ⟨sock', by simpa [he] using hsock⟩
    · exact .inr ⟨sock, by simp⟩

/-- **`close` closes an open one, which was not closed before.**  The
descriptor is free then, and may be given out again, to a connection with
another number. -/
theorem Numbered.close {x : Sockets} {vs : List Event} (h : Numbered x vs) {sock c : ℕ}
    (hc : x.conn sock = some c) :
    Numbered { x with conn := Function.update x.conn sock none } (vs ++ [.closed c]) := by
  have hclosed : closed (vs ++ [.closed c]) = closed vs ++ [c] := closed_append ..
  have hother : ∀ sock' c', Function.update x.conn sock none sock' = some c' →
      sock' ≠ sock ∧ x.conn sock' = some c' := fun sock' c' h' => by
    by_cases he : sock' = sock
    · subst he
      simp at h'
    · exact ⟨he, by simpa [he] using h'⟩
  constructor
  · intro sock' c' h'
    obtain ⟨he, h'⟩ := hother sock' c' h'
    obtain ⟨hlt, hnot⟩ := h.isOpen sock' c' h'
    refine ⟨hlt, ?_⟩
    rw [hclosed, List.mem_append, List.mem_singleton]
    rintro (hmem | rfl)
    · exact hnot hmem
    · exact he (h.inj sock' sock c' h' hc)
  · intro s₁ s₂ c' h₁ h₂
    exact h.inj s₁ s₂ c' (hother s₁ c' h₁).2 (hother s₂ c' h₂).2
  · intro c' hmem
    rw [hclosed, List.mem_append, List.mem_singleton] at hmem
    rcases hmem with hold | rfl
    · exact h.isClosed c' hold
    · exact (h.isOpen sock c' hc).1
  · rw [hclosed]
    refine List.nodup_append'.2 ⟨h.nodup, List.nodup_singleton c, ?_⟩
    simpa using (h.isOpen sock c hc).2
  · intro c' hlt
    rw [hclosed, List.mem_append, List.mem_singleton]
    rcases h.gone c' hlt with hgone | ⟨sock', hsock⟩
    · exact .inl (.inl hgone)
    · by_cases he : sock' = sock
      · subst he
        rw [hc] at hsock
        exact .inl (.inr (Option.some.inj hsock).symm)
      · exact .inr ⟨sock', by simpa [he] using hsock⟩

/-- **An access keeps the connections numbered,** under whatever free number
the kernel gives a new one. -/
theorem Numbered.act {l k : Pc Task Place} {f i} {d d' : Data Task Sockets}
    {ev e : List (ThreadPool.Event Task Event)} (h : prog (T := T) (S := S) server l = .act f)
    (hf : f i d = some (.next d' k e)) (hn : Numbered d.user (userEvents ev)) :
    Numbered d'.user (userEvents (ev ++ e)) := by
  rw [userEvents_append]
  cases ThreadPool.access h hf with
  | user hu hx =>
    rw [userEvents_user]
    cases served hu hx with
    | accepted hnone => exact hn.accept hnone
    | close hc => exact hn.close hc
    | missed | enter | read | hungUp | write => exact hn.quiet rfl
  | _ => exact hn.quiet rfl

section reachable

variable [DecidableEq T] {num : ℕ} {s : State T}

/-- In every reachable state each connection accepted is open under one
descriptor, or was closed, once. -/
theorem numbered (hs : (sys num).Reachable s) : Numbered s.data.user (userEvents s.events) := by
  refine data_invariant (J := fun d ev => Numbered d.user (userEvents ev)) (R := fun _ => True)
    (fun _ _ => trivial) (fun s h => ?_) (fun _ _ hf hnext hJ => hJ.act hf hnext) hs
  rw [h.data, St.events, h.log]
  exact ⟨by simp [Sockets.new], by simp [Sockets.new], by simp [closed], List.nodup_nil,
    by simp [Sockets.new]⟩

/-- **An open descriptor has exactly one holder, and a closed one none.**  This
is what the ledger says once its start, an empty table, is put in. -/
theorem owners [Fintype T] (hs : (sys num).Reachable s) (sock : ℕ) :
    s.tally (fun st => (socksOf st).count sock) + queued s.data sock =
      opened s.data.user sock := by
  have hb := (ledger (T := T) (S := Empty) sock).balance (b := 0) (fun s h => ?_) hs
  · rw [St.balance, St.tally_weight_cast, St.banked, Finset.univ_eq_empty, Finset.sum_empty,
      List.sum_map_zero] at hb
    have htally : s.tally (Status.weight fun l => (socks l).count sock) =
        s.tally fun st => (socksOf st).count sock :=
      Finset.sum_congr rfl fun t _ => weight_socks sock _
    rw [htally] at hb
    omega
  · have htally : s.tally (Status.weight fun l => (((socks l).count sock : ℕ) : ℤ)) = 0 :=
      Finset.sum_eq_zero fun t _ => by
        rcases h.th t with ht | ⟨u, rfl, ht⟩ <;> rw [ht] <;> rfl
    simp [St.balance, htally, St.banked, queued, opened, h.data, Sockets.new]

/-- A descriptor somebody holds is open: so `service` works on a connection
from its first call to its last. -/
theorem conn_of_mem [Fintype T] (hs : (sys num).Reachable s) {t : T} {sock : ℕ}
    (h : sock ∈ socksOf (s.th t)) : ∃ c, s.data.user.conn sock = some c := by
  have hpos : 0 < (socksOf (s.th t)).count sock := List.count_pos_iff.2 h
  have hle : (socksOf (s.th t)).count sock ≤ s.tally fun st => (socksOf st).count sock :=
    St.le_tally (fun st => (socksOf st).count sock) t
  have howners := owners hs sock
  have hopen : opened s.data.user sock ≠ 0 := by omega
  unfold opened at hopen
  split_ifs at hopen with hsome
  · exact Option.isSome_iff_exists.1 hsome
  · exact absurd rfl hopen

/-- Before a `write` the buffer has a terminator, so that `strlen` does not run
past it. -/
theorem strlen_ne_none (hs : (sys num).Reachable s) {t : T} {worker : Bool} {task : Task}
    {buffer : Buffer} (ht : s.th t = .run (.user worker (.serviceWrite task buffer))) :
    strlen buffer.1 ≠ none := by
  have hJ := terminated.obeys (fun s h t => ?_) hs t
  · rw [ht] at hJ
    have hzero : 0 ∈ buffer.1 := hJ
    simp [strlen, hzero]
  · rcases h.th t with ht | ⟨u, rfl, ht⟩ <;> rw [ht]
    · simp [Status.Obeys, St.eventsOf, h.log]
    · trivial

/-- **Nothing is undefined:** no step reads, writes or closes a descriptor that
is not open.  The pool adds nothing undefined of its own. -/
theorem not_faulty [Fintype T] (hs : (sys num).Reachable s) : ¬ Faulty (prog server) s := by
  rintro ⟨t, l, f, i, ht, hop, hu⟩
  have hconn : ∀ {worker u sock}, l = .user worker u → sock ∈ u.socks →
      s.data.user.conn sock ≠ none := fun {worker u sock} hl hsock => by
    have hmem : sock ∈ socksOf (s.th t) := by
      rw [ht, hl]
      exact hsock
    obtain ⟨c, hc⟩ := conn_of_mem hs hmem
    rw [hc]
    exact Option.some_ne_none c
  cases calls hop with
  | @userAct worker u f hact =>
    have hf := userAct_undefined hu
    cases u with
    | accept =>
      cases hact
      unfold accept at hf
      split at hf <;> first | cases hf | split at hf <;> cases hf
    | service task =>
      cases hact
      unfold enter at hf
      split at hf <;> cases hf
    | serviceRead task buffer =>
      cases hact
      exact hconn rfl (List.mem_singleton_self _) (read_undefined hf)
    | serviceWrite task buffer =>
      cases hact
      rcases write_undefined hf with hnone | hlen
      · exact hconn rfl (List.mem_singleton_self _) hnone
      · exact strlen_ne_none hs ht hlen
    | serviceClose task =>
      cases hact
      exact hconn rfl (List.mem_singleton_self _) (close_undefined hf)
    | _ => cases hact
  | routineGet =>
    have hne : s.data.taskQueue ≠ [] := found_of_run hs ht trivial
    unfold getTask at hu
    split at hu
    · cases hu
    · exact hne (by assumption)
  | @routineCall task =>
    cases task with
    | none => exact equipped hs t ht
    | some task => cases hu
  | _ => cases hu

/-- **Every accepted descriptor has exactly one owner and is closed exactly
once.**  In every reachable state an open descriptor is held once, by the
acceptor, a task in the queue or a worker, and a closed one not at all; no step
reads, writes or closes a descriptor that is not open; and every connection
accepted is either open or was closed, once. -/
theorem one_owner [Fintype T] (hs : (sys num).Reachable s) :
    (∀ sock, s.tally (fun st => (socksOf st).count sock) + queued s.data sock =
      opened s.data.user sock) ∧
      ¬ Faulty (prog server) s ∧
      (closed (userEvents s.events)).Nodup ∧
      ∀ c, c < s.data.user.accepted ↔
        Xor (c ∈ closed (userEvents s.events)) (∃ sock, s.data.user.conn sock = some c) := by
  have hn := numbered hs
  refine ⟨owners hs, not_faulty hs, hn.nodup, fun c => ⟨fun hlt => ?_, ?_⟩⟩
  · rcases hn.gone c hlt with hgone | ⟨sock, hsock⟩
    · exact .inl ⟨hgone, fun ⟨sock, hsock⟩ => (hn.isOpen sock c hsock).2 hgone⟩
    · exact .inr ⟨⟨sock, hsock⟩, (hn.isOpen sock c hsock).2⟩
  · rintro (⟨hgone, -⟩ | ⟨⟨sock, hsock⟩, -⟩)
    · exact hn.isClosed c hgone
    · exact (hn.isOpen sock c hsock).1

end reachable

/-- A client connects, is served by the one worker and hangs up; the next one
gets the number of its descriptor. -/
def twoClients : List (Fin 2 × Choice (Fin 2) Input) :=
  let peer : SockaddrIn := ⟨(127, 0, 0, 1), (31, 144)⟩
  let stack : Buffer := ⟨List.replicate serviceSize 0, List.length_replicate⟩
  [(caller, .input .step), (caller, .start worker), (caller, .input .step),
    (caller, .input (.accept (some (4, peer)))), (caller, .go), (caller, .input .step),
    (caller, .wake ∅), (caller, .go),
    (worker, .go), (worker, .input .step), (worker, .input .step), (worker, .go),
    (worker, .input .step), (worker, .input (.stack stack)), (worker, .input (.read .eof)),
    (worker, .input .step),
    (caller, .input (.accept (some (4, peer))))]

/-- The number `4` is open for the second connection and held once, by the
acceptor. -/
theorem one_owner_reused : ∃ s : State (Fin 2),
    s.data.user.conn 4 = some 1 ∧ closed (userEvents s.events) = [0] ∧
      s.tally (fun st => (socksOf st).count 4) + queued s.data 4 = opened s.data.user 4 := by
  have hinit : (sys 1).Reachable (alone caller 1 .start .new) := reachable_alone ..
  obtain ⟨s, hs, hconn, hclosed⟩ : ∃ s : State (Fin 2),
      replay (prog server) (alone caller 1 .start .new) twoClients = some s ∧
      s.data.user.conn 4 = some 1 ∧ closed (userEvents s.events) = [0] :=
    ⟨_, rfl, rfl, rfl⟩
  exact ⟨s, hconn, hclosed, (one_owner (replay_reachable twoClients hinit hs)).1 4⟩

end TcpServer
end OSNetWorkCode
