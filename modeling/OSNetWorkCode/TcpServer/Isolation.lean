/-
# What `service` writes is what it has just read on the same connection

The buffer of `service` is on the stack of a worker, is never cleared and
serves one connection after the other; what is written is found again with
`strlen`.  What was in the buffer before cannot get out, because the terminator
is put right behind what was read (`text_fill`).

On a connection the reads and writes alternate (`echoing`): only one thread
holds its descriptor, so between a read and the write after it no other thread
does anything on the connection, whatever number the descriptor has and whoever
had it before.  So the writes on a connection are a function of the reads on
it, in all runs of all servers (`isolated`).
-/

import Mathlib.Tactic.FinCases
import OSNetWorkCode.Pthread.Places
import OSNetWorkCode.TcpServer.Descriptors

namespace OSNetWorkCode
namespace TcpServer

open CString Net Pthread ThreadPool

variable {T S : Type*}

/-- A read or a write of `service`, with the bytes read or handed to
`write`. -/
inductive Io
  | read (bytes : List UInt8)
  | wrote (bytes : List UInt8)
  deriving DecidableEq

/-- What is read and written on the connection `c`. -/
def Event.io (c : ℕ) : Event → Option Io
  | .read c' bytes => if c' = c then some (.read bytes) else none
  | .wrote c' bytes _ => if c' = c then some (.wrote bytes) else none
  | _ => none

/-- The bytes of a read. -/
def Io.read? : Io → Option (List UInt8)
  | .read bytes => some bytes
  | .wrote _ => none

/-- The bytes handed to a write. -/
def Io.wrote? : Io → Option (List UInt8)
  | .read _ => none
  | .wrote bytes => some bytes

/-- The reads and writes on a connection, in order. -/
def talk (c : ℕ) (vs : List Event) : List Io := vs.filterMap (Event.io c)

/-- The chunks read on a connection. -/
def reads (c : ℕ) (vs : List Event) : List (List UInt8) := (talk c vs).filterMap Io.read?

/-- The bytes handed to `write` on a connection, call by call. -/
def writes (c : ℕ) (vs : List Event) : List (List UInt8) := (talk c vs).filterMap Io.wrote?

/-- Each chunk read, and its string written. -/
def echo (chunks : List (List UInt8)) : List Io :=
  chunks.flatMap fun bytes => [.read bytes, .wrote (text bytes)]

/-- What is said on a connection comes behind what was said before. -/
theorem talk_append (c : ℕ) (vs vs' : List Event) : talk c (vs ++ vs') = talk c vs ++ talk c vs' :=
  List.filterMap_append ..

/-- One more chunk is read, and its string written, behind the others. -/
theorem echo_append (chunks : List (List UInt8)) (bytes : List UInt8) :
    echo (chunks ++ [bytes]) = echo chunks ++ [.read bytes, .wrote (text bytes)] := by
  simp [echo]

/-- The reads of an echo are the chunks. -/
theorem read?_echo (chunks : List (List UInt8)) : (echo chunks).filterMap Io.read? = chunks := by
  induction chunks with
  | nil => rfl
  | cons bytes chunks ih =>
    rw [echo, List.flatMap_cons, List.filterMap_append]
    exact congrArg (bytes :: ·) ih

/-- The writes of an echo are their strings. -/
theorem wrote?_echo (chunks : List (List UInt8)) :
    (echo chunks).filterMap Io.wrote? = chunks.map text := by
  induction chunks with
  | nil => rfl
  | cons bytes chunks ih =>
    rw [echo, List.flatMap_cons, List.filterMap_append, List.map_cons]
    exact congrArg (text bytes :: ·) ih

/-! ### Who writes on a connection -/

/-- The descriptor and the buffer of a thread at `write`. -/
def Place.writing : Place → Option (ℕ × Buffer)
  | .serviceWrite task buffer => some (task.sock, buffer)
  | _ => none

/-- The same for a place of the pool. -/
def writing : Pc Task Place → Option (ℕ × Buffer)
  | .user _ u | .run _ _ u | .pushPush _ _ u | .pushSignal _ u | .pushUnlock _ u => u.writing
  | _ => none

/-- Only `read` and `write` themselves lead to `write` and away from it.  So
between the two nothing concerns what is to be written. -/
theorem steady_writing : Steady (prog (T := T) (S := S) server) writing where
  stay {l k} hact hk := by
    generalize hop : prog (T := T) (S := S) server l = o at hact hk
    cases calls hop with
    | pushTask hu =>
      obtain ⟨rfl, rfl⟩ := op_pushTask hu
      cases hk
      rfl
    | exit hu => exact hk.elim
    | start | pushSignal | pushUnlock | routineLock | routineWait | routineUnlock =>
      cases hk
      rfl
    | _ => exact absurd rfl (hact _)
  create {l start k} h := by
    cases calls h
    rfl

/-- Whoever writes holds the descriptor, so that nobody else does: the
descriptors that threads hold are apart. -/
theorem mem_socksOf_of_writing {st : Status Mutex Cond (Pc Task Place)} {sock : ℕ} {buffer : Buffer}
    (h : st.mark writing = some (sock, buffer)) : sock ∈ socksOf st := by
  have hplace : ∀ u : Place, u.writing = some (sock, buffer) → sock ∈ u.socks := by
    intro u hu
    cases u with
    | serviceWrite task buffer' =>
      cases hu
      exact List.mem_singleton_self _
    | _ => cases hu
  have hpc : ∀ l, writing l = some (sock, buffer) → sock ∈ socks l := by
    intro l hl
    cases l with
    | user worker u | run worker i u | pushSignal worker u | pushUnlock worker u =>
      exact hplace u hl
    | pushPush task worker u => exact List.mem_cons_of_mem _ (hplace u hl)
    | _ => cases hl
  cases st with
  | unborn => cases h
  | run l | waiting c m l | woken m l => exact hpc l h

/-- The thread `t` is about to write `buffer` on the connection `c`. -/
def Writing (s : State T) (c : ℕ) (t : T) (buffer : Buffer) : Prop :=
  ∃ sock, (s.th t).mark writing = some (sock, buffer) ∧ s.data.user.conn sock = some c

section reachable

variable [Fintype T] [DecidableEq T] {num : ℕ} {s : State T}

/-- **A descriptor has one holder.**  Two holders would be two entries of an
account that is at most one. -/
theorem holder_unique (hs : (sys num).Reachable s) {t u : T} {sock : ℕ}
    (ht : sock ∈ socksOf (s.th t)) (hu : sock ∈ socksOf (s.th u)) : t = u := by
  by_contra htu
  have hpair := s.add_le_tally (fun st => (socksOf st).count sock) htu
  have hone := owners hs sock
  have hopened : opened s.data.user sock ≤ 1 := by
    unfold opened
    split_ifs
    · exact le_rfl
    · exact Nat.zero_le 1
  have hcount := List.count_pos_iff.2 ht
  have hcount' := List.count_pos_iff.2 hu
  omega

/-- Whoever holds a descriptor of a connection is the one that writes on it, if
any does. -/
theorem Writing.eq_of_holds (hs : (sys num).Reachable s) {c : ℕ} {t u : T} {buffer : Buffer}
    (h : Writing s c t buffer) {sock : ℕ} (hu : sock ∈ socksOf (s.th u))
    (hc : s.data.user.conn sock = some c) : t = u := by
  obtain ⟨sock', hmark, hc'⟩ := h
  obtain rfl := (numbered hs).inj sock' sock c hc' hc
  exact holder_unique hs (mem_socksOf_of_writing hmark) hu

/-! ### One access -/

/-- What an access of a thread that goes on from `l` to `k` does on the
connections. -/
inductive Access (l k : Pc Task Place) (x : Sockets) : Sockets → List Event → Prop
  | quiet (hk : writing k = writing l) : Access l k x x []
  | accept {sock} (hnone : x.conn sock = none) (hl : writing l = none) (hk : writing k = none) :
      Access l k x ⟨Function.update x.conn sock (some x.accepted), x.accepted + 1⟩
        [.accepted x.accepted sock]
  | read {sock c buffer bytes fits} (hl : writing l = none) (hmem : sock ∈ socks l)
      (hk : writing k = some (sock, fill buffer bytes fits)) (hc : x.conn sock = some c) :
      Access l k x x [.read c bytes]
  | write {sock c buffer n r} (hl : writing l = some (sock, buffer)) (hk : writing k = none)
      (hc : x.conn sock = some c) (hn : strlen buffer.1 = some n) :
      Access l k x x [.wrote c (buffer.1.take n) r]
  | close {sock c} (hl : writing l = none) (hmem : sock ∈ socks l) (hk : writing k = none)
      (hc : x.conn sock = some c) :
      Access l k x { x with conn := Function.update x.conn sock none } [.closed c]

omit [Fintype T] [DecidableEq T] in
/-- **Every access is one of these,** as far as the connections can see it:
quiet, or one of the four calls on a descriptor that the thread holds. -/
theorem access {l k : Pc Task Place} {f i} {d d' : Data Task Sockets}
    {e : List (ThreadPool.Event Task Event)} (h : prog (T := T) (S := S) server l = .act f)
    (hf : f i d = some (.next d' k e)) : Access l k d.user d'.user (userEvents e) := by
  cases ThreadPool.access h hf with
  | user hu hx =>
    rw [userEvents_user]
    cases served hu hx with
    | missed | enter | hungUp => exact .quiet rfl
    | accepted hnone => exact .accept hnone rfl rfl
    | read hc => exact .read rfl (List.mem_singleton_self _) rfl hc
    | write hc hn => exact .write rfl rfl hc hn
    | close hc => exact .close rfl (List.mem_singleton_self _) rfl hc
  | runBegin hu =>
    obtain ⟨rfl, rfl⟩ := op_run hu
    exact .quiet rfl
  | taskReturn hu =>
    obtain rfl := op_ret hu
    exact .quiet rfl
  | _ => exact .quiet rfl

omit [Fintype T] in
/-- Nothing happens on a connection before it is accepted: what is read or
written is on one that is open, and those have smaller numbers. -/
theorem talk_fresh (hs : (sys num).Reachable s) {c : ℕ} (hc : s.data.user.accepted ≤ c) :
    talk c (userEvents s.events) = [] := by
  refine data_invariant (J := fun d ev => d.user.accepted ≤ c → talk c (userEvents ev) = [])
    (R := (sys num).Reachable) (fun _ h => h) (fun s h _ => ?_) ?_ hs hc
  · rw [St.events, h.log]
    rfl
  · intro s t l f i d k e hr ht hop hf hJ
    have hacc := access hop hf
    have hlt := (numbered hr).isOpen
    rw [userEvents_append, talk_append]
    generalize userEvents e = vs, d.user = x' at hacc
    intro hc
    cases hacc with
    | quiet => rw [hJ hc]; rfl
    | accept => rw [hJ (Nat.le_of_succ_le hc)]; rfl
    | @read sock c' _ _ _ _ _ _ hconn =>
      have hne : c' ≠ c := ((hlt sock c' hconn).1.trans_le hc).ne
      rw [hJ hc]
      simp [talk, Event.io, hne]
    | @write sock c' _ _ _ _ _ hconn =>
      have hne : c' ≠ c := ((hlt sock c' hconn).1.trans_le hc).ne
      rw [hJ hc]
      simp [talk, Event.io, hne]
    | close => rw [hJ hc]; rfl

/-- The reads and writes on a connection alternate; while a thread is about to
write on it, its buffer holds the string of the last read. -/
def Echoing (s : State T) (c : ℕ) : Prop :=
  ∃ chunks, (talk c (userEvents s.events) = echo chunks ∧ ∀ t buffer, ¬ Writing s c t buffer) ∨
    ∃ t buffer bytes, Writing s c t buffer ∧ text buffer.1 = text bytes ∧
      talk c (userEvents s.events) = echo chunks ++ [.read bytes]

omit [Fintype T] [DecidableEq T] in
/-- A step that changes neither who writes on a connection nor what was said on
it keeps reads and writes alternating. -/
theorem Echoing.congr {s s' : State T} {c : ℕ} (h : Echoing s c)
    (hw : ∀ u buffer, Writing s' c u buffer ↔ Writing s c u buffer)
    (htalk : talk c (userEvents s'.events) = talk c (userEvents s.events)) : Echoing s' c := by
  obtain ⟨chunks, ⟨hecho, hno⟩ | ⟨t, buffer, bytes, hwr, htext, hecho⟩⟩ := h
  · exact ⟨chunks, .inl ⟨htalk.trans hecho, fun u b hu => hno u b ((hw u b).1 hu)⟩⟩
  · exact ⟨chunks, .inr ⟨t, buffer, bytes, (hw t buffer).2 hwr, htext, htalk.trans hecho⟩⟩

omit [Fintype T] in
/-- Who writes after an access: the others that did, and the thread itself if
it is at `write` now. -/
theorem writing_put {t u : T} {d : Data Task Sockets} {e : List (ThreadPool.Event Task Event)}
    {k : Pc Task Place} {c : ℕ} {buffer : Buffer} :
    Writing ((s.record t d e).put t (.run k)) c u buffer ↔
      ∃ sock, (if u = t then writing k else (s.th u).mark writing) = some (sock, buffer) ∧
        d.user.conn sock = some c := by
  unfold Writing
  rw [mark_put]
  rfl

section step

variable {t : T} {l k : Pc Task Place} {d : Data Task Sockets}
variable {e : List (ThreadPool.Event Task Event)} {c : ℕ}

omit [Fintype T] in
/-- What was said after an access: what was said before, and what the access
says. -/
theorem talk_put : talk c (userEvents ((s.record t d e).put t (.run k)).events) =
    talk c (userEvents s.events) ++ talk c (userEvents e) := by
  rw [St.put_events, St.record_events, userEvents_append, talk_append]

omit [Fintype T] in
/-- An access that is not about `c` leaves what is said on it and who is about
to write on it. -/
theorem Echoing.frame (h : Echoing s c) (ht : s.th t = .run l)
    (hmark : ∀ sock buffer, writing k = some (sock, buffer) ∧ d.user.conn sock = some c ↔
      writing l = some (sock, buffer) ∧ s.data.user.conn sock = some c)
    (hconn : ∀ sock, d.user.conn sock = some c ↔ s.data.user.conn sock = some c)
    (htalk : talk c (userEvents e) = []) : Echoing ((s.record t d e).put t (.run k)) c := by
  refine h.congr (fun u buffer => writing_put.trans (exists_congr fun sock => ?_)) ?_
  · by_cases hu : u = t
    · subst hu
      rw [if_pos rfl, ht]
      exact hmark sock buffer
    · rw [if_neg hu]
      exact and_congr_right fun _ => hconn sock
  · rw [talk_put, htalk, List.append_nil]

/-- Nobody writes on a connection whose descriptor is held by a thread that is
not at `write`. -/
theorem not_writing (hs : (sys num).Reachable s) (ht : s.th t = .run l) (hl : writing l = none)
    {sock : ℕ} (hmem : sock ∈ socks l) (hc : s.data.user.conn sock = some c) (u : T)
    (buffer : Buffer) : ¬ Writing s c u buffer := by
  intro hwr
  have hholds : sock ∈ socksOf (s.th t) := by
    rw [ht]
    exact hmem
  obtain rfl := hwr.eq_of_holds hs hholds hc
  obtain ⟨sock', hsock', -⟩ := hwr
  rw [ht, show (Status.run l : Status Mutex Cond _).mark writing = writing l from rfl, hl] at hsock'
  cases hsock'

/-- `accept`: nothing was said on the new connection, and nobody writes on it.
Its descriptor may have been that of another connection, which was closed
before. -/
theorem echoing_accept (hs : (sys num).Reachable s) {sock : ℕ}
    (hnone : s.data.user.conn sock = none)
    (hd : d.user.conn = Function.update s.data.user.conn sock (some s.data.user.accepted))
    (hk : writing k = none) (htalk : talk s.data.user.accepted (userEvents e) = []) :
    Echoing ((s.record t d e).put t (.run k)) s.data.user.accepted := by
  refine ⟨[], .inl ⟨?_, fun u buffer hwr => ?_⟩⟩
  · rw [talk_put, talk_fresh hs le_rfl, htalk]
    rfl
  · obtain ⟨sock', hsock', hconn⟩ := writing_put.1 hwr
    by_cases hu : u = t
    · rw [if_pos hu, hk] at hsock'
      cases hsock'
    · rw [if_neg hu] at hsock'
      obtain ⟨c', hc'⟩ := conn_of_mem hs (mem_socksOf_of_writing hsock')
      have hne : sock' ≠ sock := by
        rintro rfl
        rw [hnone] at hc'
        cases hc'
      rw [hd, Function.update_of_ne hne] at hconn
      exact Nat.lt_irrefl _ ((numbered hs).isOpen sock' _ hconn).1

/-- `read`: its thread is the one that writes next, and its buffer holds the
string of what was read, whatever it held before. -/
theorem echoing_read (hs : (sys num).Reachable s) (ht : s.th t = .run l) (h : Echoing s c)
    {sock : ℕ} {buffer : Buffer} {bytes : List UInt8} {fits} (hl : writing l = none)
    (hmem : sock ∈ socks l) (hk : writing k = some (sock, fill buffer bytes fits))
    (hd : d.user = s.data.user) (hc : s.data.user.conn sock = some c)
    (htalk : talk c (userEvents e) = [.read bytes]) :
    Echoing ((s.record t d e).put t (.run k)) c := by
  obtain ⟨chunks, ⟨hecho, -⟩ | ⟨u, b, got, hwr, -⟩⟩ := h
  · refine ⟨chunks, .inr ⟨t, fill buffer bytes fits, bytes, ?_, text_fill _ _ _, ?_⟩⟩
    · refine writing_put.2 ⟨sock, ?_, ?_⟩
      · rw [if_pos rfl, hk]
      · rw [hd, hc]
    · rw [talk_put, hecho, htalk]
  · exact absurd hwr (not_writing hs ht hl hmem hc u b)

/-- `write`: it was the turn of its thread, and nobody else writes.  What it
hands over is the string of the last read. -/
theorem echoing_write (hs : (sys num).Reachable s) (ht : s.th t = .run l) (h : Echoing s c)
    {sock n : ℕ} {buffer : Buffer} (hl : writing l = some (sock, buffer)) (hk : writing k = none)
    (hd : d.user = s.data.user) (hc : s.data.user.conn sock = some c)
    (hn : strlen buffer.1 = some n)
    (htalk : talk c (userEvents e) = [.wrote (buffer.1.take n)]) :
    Echoing ((s.record t d e).put t (.run k)) c := by
  have hmark : (s.th t).mark writing = some (sock, buffer) := by
    rw [ht]
    exact hl
  have hmem := mem_socksOf_of_writing hmark
  obtain ⟨chunks, ⟨-, hno⟩ | ⟨u, b, got, hwr, htext, hecho⟩⟩ := h
  · exact absurd ⟨sock, hmark, hc⟩ (hno t buffer)
  · obtain rfl := hwr.eq_of_holds hs hmem hc
    obtain rfl : b = buffer := by
      obtain ⟨sock', hsock', -⟩ := hwr
      rw [hmark] at hsock'
      cases hsock'
      rfl
    refine ⟨chunks ++ [got], .inl ⟨?_, fun v b' hv => ?_⟩⟩
    · rw [talk_put, hecho, htalk, echo_append, take_strlen hn, htext, List.append_assoc]
      rfl
    · obtain ⟨sock', hsock', hconn'⟩ := writing_put.1 hv
      by_cases hu : v = u
      · rw [if_pos hu, hk] at hsock'
        cases hsock'
      · rw [if_neg hu] at hsock'
        rw [hd] at hconn'
        have hv' : Writing s c v b' := ⟨sock', hsock', hconn'⟩
        exact hu (hv'.eq_of_holds hs hmem hc)

/-- `close`: the connection is under no descriptor any more, so that nothing
more will be said on it. -/
theorem echoing_close (hs : (sys num).Reachable s) (ht : s.th t = .run l) (h : Echoing s c)
    {sock : ℕ} (hl : writing l = none) (hmem : sock ∈ socks l)
    (hd : d.user.conn = Function.update s.data.user.conn sock none)
    (hc : s.data.user.conn sock = some c) (htalk : talk c (userEvents e) = []) :
    Echoing ((s.record t d e).put t (.run k)) c := by
  obtain ⟨chunks, ⟨hecho, -⟩ | ⟨u, b, got, hwr, -⟩⟩ := h
  · refine ⟨chunks, .inl ⟨?_, fun u b hwr => ?_⟩⟩
    · rw [talk_put, hecho, htalk, List.append_nil]
    · obtain ⟨sock', -, hconn'⟩ := writing_put.1 hwr
      rw [hd] at hconn'
      by_cases hsock : sock' = sock
      · subst hsock
        rw [Function.update_self] at hconn'
        cases hconn'
      · rw [Function.update_of_ne hsock] at hconn'
        exact hsock ((numbered hs).inj sock' sock c hconn' hc)
  · exact absurd hwr (not_writing hs ht hl hmem hc u b)

/-- **An access keeps reads and writes alternating,** on every connection,
whichever it is about. -/
theorem echoing_act (hs : (sys num).Reachable s) (ht : s.th t = .run l)
    (hacc : Access l k s.data.user d.user (userEvents e)) (h : Echoing s c) :
    Echoing ((s.record t d e).put t (.run k)) c := by
  generalize hvs : userEvents e = vs at hacc
  generalize hx : d.user = x' at hacc
  cases hacc with
  | quiet hk =>
    exact h.frame ht (fun sock buffer => by rw [hk, hx]) (fun sock => by rw [hx]) (by rw [hvs]; rfl)
  | @accept sock hnone hl hk =>
    by_cases hc : c = s.data.user.accepted
    · subst hc
      exact echoing_accept hs hnone (by rw [hx]) hk (by rw [hvs]; rfl)
    · refine h.frame ht (fun sock' buffer => by simp [hk, hl]) (fun sock' => ?_) (by rw [hvs]; rfl)
      rw [hx]
      by_cases hsock : sock' = sock
      · subst hsock
        simp [hnone, Ne.symm hc]
      · simp [hsock]
  | @read sock c' buffer bytes fits hl hmem hk hc =>
    by_cases he : c' = c
    · subst he
      exact echoing_read hs ht h hl hmem hk hx hc (by rw [hvs]; simp [talk, Event.io])
    · refine h.frame ht (fun sock' b => ?_) (fun sock' => by rw [hx]) ?_
      · rw [hk, hl, hx]
        constructor
        · rintro ⟨hsock, hc'⟩
          cases hsock
          rw [hc] at hc'
          exact absurd (Option.some.inj hc') he
        · rintro ⟨hsock, -⟩
          cases hsock
      · rw [hvs]
        simp [talk, Event.io, he]
  | @write sock c' buffer n r hl hk hc hn =>
    by_cases he : c' = c
    · subst he
      exact echoing_write hs ht h hl hk hx hc hn (by rw [hvs]; simp [talk, Event.io])
    · refine h.frame ht (fun sock' b => ?_) (fun sock' => by rw [hx]) ?_
      · rw [hk, hl, hx]
        constructor
        · rintro ⟨hsock, -⟩
          cases hsock
        · rintro ⟨hsock, hc'⟩
          cases hsock
          rw [hc] at hc'
          exact absurd (Option.some.inj hc') he
      · rw [hvs]
        simp [talk, Event.io, he]
  | @close sock c' hl hmem hk hc =>
    by_cases he : c' = c
    · subst he
      exact echoing_close hs ht h hl hmem (by rw [hx]) hc (by rw [hvs]; rfl)
    · refine h.frame ht (fun sock' buffer => by simp [hk, hl]) (fun sock' => ?_) (by rw [hvs]; rfl)
      rw [hx]
      by_cases hsock : sock' = sock
      · subst hsock
        simp [hc, he]
      · simp [hsock]

end step

/-- **Reads and writes alternate on every connection, in every reachable
state.**  A write is due only to the thread that has made the last read. -/
theorem echoing (hs : (sys num).Reachable s) (c : ℕ) : Echoing s c := by
  revert c
  refine hs.invariant (I := fun s => ∀ c, Echoing s c) (fun s h c => ?_) ?_
  · refine ⟨[], .inl ⟨?_, fun t buffer hwr => ?_⟩⟩
    · rw [St.events, h.log]
      rfl
    · obtain ⟨sock, -, hconn⟩ := hwr
      rw [h.data] at hconn
      cases hconn
  · rintro s s' hr h ⟨t, hst | hw⟩ c
    · rcases hst.quiet_or_act with hq | ⟨l, f, i, d, k, e, ht, hop, hf, rfl⟩
      · refine (h c).congr (fun u buffer => ?_) ?_
        · unfold Writing
          rw [steady_writing.quiet hq, hq.data]
        · rw [St.events, St.events, hq.log]
      · exact echoing_act hr ht (access hop hf) (h c)
    · refine (h c).congr (fun u buffer => ?_) ?_
      · unfold Writing Status.mark
        rw [hw.place u]
        obtain ⟨-⟩ := hw
        rfl
      · obtain ⟨-⟩ := hw
        rfl

/-- A write comes right after the read of what it writes, and is the text of
what was read.  The induction is on the chunks that were echoed. -/
theorem wrote_after_read {chunks : List (List UInt8)} {rest : List Io} {bytes : List UInt8}
    (hrest : ∀ b, .wrote b ∉ rest) {before after : List Io}
    (h : echo chunks ++ rest = before ++ .wrote bytes :: after) :
    ∃ before' got, before = before' ++ [.read got] ∧ bytes = text got := by
  induction chunks generalizing before with
  | nil =>
    have hmem : .wrote bytes ∈ rest := by
      rw [show rest = before ++ .wrote bytes :: after from h]
      simp
    exact absurd hmem (hrest bytes)
  | cons got chunks ih =>
    rw [echo, List.flatMap_cons] at h
    match before with
    | [] => cases h
    | [io] =>
      injection h with hread hrest'
      injection hrest' with hwrote
      injection hwrote with hbytes
      exact ⟨[], got, by rw [← hread]; rfl, hbytes.symm⟩
    | io :: io' :: before =>
      injection h with hread hrest'
      injection hrest' with hwrote hmore
      obtain ⟨before', got', rfl, hbytes⟩ := ih hmore
      exact ⟨io :: io' :: before', got', rfl, hbytes⟩

/-- The writes on a connection are the strings of the reads, the last one
perhaps not written yet. -/
theorem writes_of_reads (hs : (sys num).Reachable s) (c : ℕ) :
    ∃ chunks, writes c (userEvents s.events) = chunks.map text ∧
      (reads c (userEvents s.events) = chunks ∧ (∀ t buffer, ¬ Writing s c t buffer) ∨
        ∃ bytes, reads c (userEvents s.events) = chunks ++ [bytes] ∧
          ∃ t buffer, Writing s c t buffer) := by
  obtain ⟨chunks, ⟨hecho, hno⟩ | ⟨t, buffer, bytes, hwr, -, hecho⟩⟩ := echoing hs c
  · refine ⟨chunks, ?_, .inl ⟨?_, hno⟩⟩
    · rw [writes, hecho, wrote?_echo]
    · rw [reads, hecho, read?_echo]
  · refine ⟨chunks, ?_, .inr ⟨bytes, ?_, t, buffer, hwr⟩⟩
    · rw [writes, hecho, List.filterMap_append, wrote?_echo]
      exact List.append_nil _
    · rw [reads, hecho, List.filterMap_append, read?_echo]
      rfl

/-- **The `i`-th write on a connection is the string of the `i`-th read.**
This is how each write is told from what was read for it. -/
theorem getElem?_writes (hs : (sys num).Reachable s) {c i : ℕ} {w : List UInt8}
    (hw : (writes c (userEvents s.events))[i]? = some w) :
    ∃ bytes, (reads c (userEvents s.events))[i]? = some bytes ∧ w = text bytes := by
  obtain ⟨chunks, hwrites, hreads⟩ := writes_of_reads hs c
  rw [hwrites, List.getElem?_map, Option.map_eq_some_iff] at hw
  obtain ⟨bytes, hbytes, rfl⟩ := hw
  refine ⟨bytes, ?_, rfl⟩
  rcases hreads with ⟨hreads, -⟩ | ⟨last, hreads, -⟩
  · rw [hreads, hbytes]
  · obtain ⟨hlt, -⟩ := List.getElem?_eq_some_iff.1 hbytes
    rw [hreads, List.getElem?_append_left hlt, hbytes]

end reachable

section runs

variable {T' : Type*} [Fintype T] [DecidableEq T] [Fintype T'] [DecidableEq T'] {num num' : ℕ}
variable {s : State T} {s' : State T'}

/-- **Connections cannot see each other's or stale data.**  Each write on a
connection hands over a prefix of the bytes of the read right before it on the
same connection.  In any two runs, of any servers with any clients and any
contents of the stack, the `i`-th writes on two connections are the same if the
`i`-th reads are; and if all chunks read are the same and no write is pending,
the bytes handed to `write` are the same. -/
theorem isolated (hs : (sys num).Reachable s) (hs' : (sys num').Reachable s') (c c' : ℕ) :
    (∀ before bytes after, talk c (userEvents s.events) = before ++ .wrote bytes :: after →
      ∃ before' got, before = before' ++ [.read got] ∧ bytes <+: got) ∧
    (∀ (i : ℕ) (w w' : List UInt8),
      (reads c (userEvents s.events))[i]? = (reads c' (userEvents s'.events))[i]? →
      (writes c (userEvents s.events))[i]? = some w →
      (writes c' (userEvents s'.events))[i]? = some w' → w = w') ∧
    (reads c (userEvents s.events) = reads c' (userEvents s'.events) →
      (∀ t buffer, ¬ Writing s c t buffer) → (∀ t buffer, ¬ Writing s' c' t buffer) →
      writes c (userEvents s.events) = writes c' (userEvents s'.events)) := by
  refine ⟨fun before bytes after hsplit => ?_, fun i w w' hreads hw hw' => ?_,
    fun hreads hno hno' => ?_⟩
  · obtain ⟨chunks, ⟨hecho, -⟩ | ⟨t, buffer, last, -, -, hecho⟩⟩ := echoing hs c
    · rw [hecho, ← List.append_nil (echo chunks)] at hsplit
      obtain ⟨before', got, hbefore, rfl⟩ := wrote_after_read (by simp) hsplit
      exact ⟨before', got, hbefore, text_initial got⟩
    · rw [hecho] at hsplit
      obtain ⟨before', got, hbefore, rfl⟩ := wrote_after_read (by simp) hsplit
      exact ⟨before', got, hbefore, text_initial got⟩
  · obtain ⟨bytes, hbytes, rfl⟩ := getElem?_writes hs hw
    obtain ⟨bytes', hbytes', rfl⟩ := getElem?_writes hs' hw'
    rw [hbytes, hbytes'] at hreads
    rw [Option.some.inj hreads]
  · obtain ⟨chunks, hwrites, ⟨hchunks, -⟩ | ⟨-, -, t, buffer, hwr⟩⟩ := writes_of_reads hs c
    · obtain ⟨chunks', hwrites', ⟨hchunks', -⟩ | ⟨-, -, t, buffer, hwr⟩⟩ :=
        writes_of_reads hs' c'
      · rw [hwrites, hwrites', ← hchunks, ← hchunks', hreads]
      · exact absurd hwr (hno' t buffer)
    · exact absurd hwr (hno t buffer)

end runs

/-- A client sends `"hi"`, which the one worker reads and writes back; the
stack holds `b` wherever the buffer is. -/
def hiOver (b : UInt8) : List (Fin 2 × Choice (Fin 2) Input) :=
  let peer : SockaddrIn := ⟨(127, 0, 0, 1), (31, 144)⟩
  let stack : Buffer := ⟨List.replicate serviceSize b, List.length_replicate⟩
  [(caller, .input .step), (caller, .start worker), (caller, .input .step),
    (caller, .input (.accept (some (4, peer)))), (caller, .go), (caller, .input .step),
    (caller, .wake ∅), (caller, .go),
    (worker, .go), (worker, .input .step), (worker, .input .step), (worker, .go),
    (worker, .input .step), (worker, .input (.stack stack)),
    (worker, .input (.read (.data [104, 105] (by decide) (by decide)))),
    (worker, .input (.write (some 2)))]

/-- What the stack held makes no difference to what the client gets back: two
runs over different contents write the same. -/
theorem isolated_hi : ∃ s s' : State (Fin 2), (sys 1).Reachable s ∧ (sys 1).Reachable s' ∧
    writes 0 (userEvents s.events) = [[104, 105]] ∧
    writes 0 (userEvents s.events) = writes 0 (userEvents s'.events) := by
  have hinit : (sys 1).Reachable (alone caller 1 .start .new) := reachable_alone ..
  have hrun : ∀ b : UInt8, ∃ s : State (Fin 2), (sys 1).Reachable s ∧
      reads 0 (userEvents s.events) = [[104, 105]] ∧
      writes 0 (userEvents s.events) = [[104, 105]] ∧ ∀ t buffer, ¬ Writing s 0 t buffer := by
    intro b
    obtain ⟨s, hs, hreads, hwrites, h0, h1⟩ : ∃ s : State (Fin 2),
        replay (prog server) (alone caller 1 .start .new) (hiOver b) = some s ∧
        reads 0 (userEvents s.events) = [[104, 105]] ∧
        writes 0 (userEvents s.events) = [[104, 105]] ∧
        (s.th 0).mark writing = none ∧ (s.th 1).mark writing = none :=
      ⟨_, rfl, rfl, rfl, rfl, rfl⟩
    refine ⟨s, replay_reachable _ hinit hs, hreads, hwrites, fun t buffer hwr => ?_⟩
    obtain ⟨sock, hmark, -⟩ := hwr
    have hnone : (s.th t).mark writing = none := by
      fin_cases t
      · exact h0
      · exact h1
    rw [hnone] at hmark
    cases hmark
  obtain ⟨s, hs, hreads, hwrites, hno⟩ := hrun 0
  obtain ⟨s', hs', hreads', -, hno'⟩ := hrun 65
  exact ⟨s, s', hs, hs', hwrites,
    (isolated hs hs' 0 0).2.2 (hreads.trans hreads'.symm) hno hno'⟩

end TcpServer
end OSNetWorkCode
