/-
# When the pool is destroyed once, and by its last user

A server's `unique_ptr` makes it an owner of the pool, but the pool is
everybody's: of the other servers, of whoever calls `getThreadPool`, and of the
workers.  Two servers are enough to destroy it twice (`destroyed_twice`).

The caller who may destroy only one server, after which nothing is asked for
any more, and only while no worker was started (`careful`), never comes to
that.  The invariant has two phases.  Before the first destruction nothing of
the pool is deleted (`Before`).  From then on one thread at most is deleting,
no worker exists, and nobody gets the pool's address (`After`).
-/

import OSNetWorkCode.Ownership.Model
import OSNetWorkCode.Pthread.Schedule

namespace OSNetWorkCode
namespace Ownership

open Pthread

variable {T : Type*}

/-- The caller who asks for nothing once a server was destroyed, and destroys a
server only if no server was started, or the pool has no threads to start. -/
def careful (d : Data) : Request → Bool
  | .construct | .getThreadPool _ | .start _ => d.servers.all fun sv => !sv.destroyed
  | .destroy _ => (d.servers.all fun sv => !sv.destroyed) &&
      ((d.servers.all fun sv => !sv.started) || d.pools.all fun pool => pool.threads.isEmpty)

/-- No pool that was destroyed before is returned. -/
def Fresh (ev : List Event) : Prop :=
  ∀ n p, ev[n]? = some (.returned p) → p ∉ destroyed (ev.take n)

/-- The ownership of the pool is sound so far: no pool was destroyed twice,
none was returned after it was destroyed, and no worker is about to use a pool,
or a `Thread` object, that is gone. -/
structure Sound [DecidableEq T] (s : State T) : Prop where
  once : (destroyed s.events).Nodup
  fresh : Fresh s.events
  /-- No worker's next step works on a pool that was destroyed. -/
  pool : ∀ t s' p, Step (prog System.anything) s t s' → (s.th t).mark onPool = some p →
    p ∉ destroyed s.events
  /-- Nor on a `Thread` object that was deleted. -/
  thread : ∀ t s' td, Step (prog System.anything) s t s' → (s.th t).mark onThread = some td →
    td ∉ deleted s.events

/-- A worker, or a thread about to start one. -/
def busy : Pc → Prop
  | .run _ _ n => 0 < n
  | .routine _ | .routineLock .. | .routineTest .. | .routineWait .. | .routineGet ..
  | .routineUnlock .. | .routineCall .. => True
  | _ => False

/-- The pool a thread is deleting. -/
def deleting : Pc → Option ℕ
  | .delete pool _ _ => some pool
  | _ => none

/-- The accesses, sorted by what they do to the life of the pool. -/
inductive Access (ok : Data → Request → Bool) (d : Data) : Pc → Data → Pc → List Event → Prop
  | request {d' k e} (h : Requested ok d d' k e) : Access ok d .main d' k e
  | work {l d' k} (hservers : d'.servers = d.servers)
      (hthreads : d'.pools.map Pool.threads = d.pools.map Pool.threads)
      (hl : deleting l = none) (hk : deleting k = none) (hbusy : busy k → busy l) :
      Access ok d l d' k []
  | deleteThread {p i n} :
      Access ok d (.delete p i (n + 1)) d (.delete p (i + 1) n) [.deleted p i]
  | deleteEnd {p i} : Access ok d (.delete p i 0) d .main [.destroyed p]

section access

variable {ok : Data → Request → Bool} {i : Input} {d d' : Data} {l k : Pc} {e : List Event}

/-- Tasks come and go without touching the `Thread` objects.  So `push` and
`getTask` need no cases of their own in `access`. -/
theorem threads_onPool (d : Data) (p : ℕ) {f : Pool → Pool}
    (hf : ∀ pool, (f pool).threads = pool.threads) :
    (d.onPool p f).pools.map Pool.threads = d.pools.map Pool.threads := by
  refine List.ext_getElem? fun n => ?_
  rw [List.getElem?_map, List.getElem?_map, Data.onPool, List.getElem?_modify]
  by_cases hn : p = n
  · cases hd : d.pools[n]? with
    | none => simp
    | some pool => simp [hn, hf]
  · simp [hn]

/-- **Every access is one of the kinds of `Access`.**  The two phases are
carried through these kinds and no longer through the program. -/
theorem access {f} (hop : prog (T := T) ok l = .act f) (hf : f i d = some (.next d' k e)) :
    Access ok d l d' k e := by
  cases l with
  | main =>
    cases hop
    exact .request (request_next hf)
  | run pool j n =>
    cases n with
    | zero =>
      cases hop
      obtain ⟨rfl, rfl, rfl⟩ := runEnd_next hf
      exact .work rfl rfl rfl rfl False.elim
    | succ n => cases hop
  | accept pool =>
    cases hop
    obtain ⟨rfl, rfl | rfl, rfl⟩ := accept_next hf <;> exact .work rfl rfl rfl rfl False.elim
  | pushPush pool =>
    cases hop
    obtain ⟨rfl, rfl, rfl⟩ := push_next hf
    exact .work rfl (threads_onPool d pool fun _ => rfl) rfl rfl False.elim
  | delete pool j n =>
    cases n with
    | zero =>
      cases hop
      obtain ⟨rfl, rfl, rfl⟩ := deleteEnd_next hf
      exact .deleteEnd
    | succ n =>
      cases hop
      obtain ⟨rfl, rfl, rfl⟩ := deleteThread_next hf
      exact .deleteThread
  | routine td =>
    cases hop
    obtain ⟨rfl, ⟨tp, rfl⟩, rfl⟩ := args_next hf
    exact .work rfl rfl rfl rfl fun _ => trivial
  | routineTest td tp =>
    cases hop
    obtain ⟨rfl, rfl | rfl, rfl⟩ := test_next hf <;> exact .work rfl rfl rfl rfl fun _ => trivial
  | routineGet td tp =>
    cases hop
    obtain ⟨rfl, rfl, rfl⟩ := getTask_next hf
    exact .work rfl (threads_onPool d tp fun _ => rfl) rfl rfl fun _ => trivial
  | routineCall td tp =>
    cases hop
    obtain ⟨rfl, rfl, rfl⟩ := callTask_next hf
    exact .work rfl rfl rfl rfl fun _ => trivial
  | pushLock pool | pushSignal pool | pushUnlock pool => cases hop
  | routineLock td tp | routineWait td tp | routineUnlock td tp => cases hop

/-- A call other than an access does not make a thread busy that was not: busy
threads stay among the places of a worker, and only `start` leads there. -/
theorem busy_of_leads (hact : ∀ f, prog (T := T) ok l ≠ .act f) (hk : (prog (T := T) ok l).Leads k)
    (hbusy : busy k) : busy l := by
  cases l with
  | run pool j n =>
    cases n with
    | zero => exact absurd rfl (hact _)
    | succ n => exact Nat.succ_pos n
  | pushLock pool | pushSignal pool | pushUnlock pool =>
    obtain rfl := hk
    exact hbusy
  | routineLock td tp | routineWait td tp | routineUnlock td tp => trivial
  | delete pool j n => cases n <;> exact absurd rfl (hact _)
  | _ => exact absurd rfl (hact _)

/-- Only a busy thread starts others.  This is why a worker needs a server that
was started. -/
theorem busy_of_create {begin : Pc} (hop : prog (T := T) ok l = .create begin k) : busy l := by
  cases l with
  | run pool j n =>
    cases n with
    | zero => cases hop
    | succ n => exact Nat.succ_pos n
  | delete pool j n => cases n <;> cases hop
  | _ => cases hop

/-- `~ThreadPool` is entered and left by accesses only: by the request to
destroy a server, and by the end of the deletion. -/
theorem steady_deleting : Steady (prog (T := T) ok) deleting where
  stay {l k} hact hk := by
    cases l with
    | run pool j n =>
      cases n with
      | zero => exact absurd rfl (hact _)
      | succ n =>
        obtain rfl := hk
        rfl
    | pushLock pool | pushSignal pool | pushUnlock pool =>
      obtain rfl := hk
      rfl
    | routineLock td tp | routineWait td tp | routineUnlock td tp =>
      obtain rfl := hk
      rfl
    | delete pool j n => cases n <;> exact absurd rfl (hact _)
    | _ => exact absurd rfl (hact _)
  create {l begin k} hop := by
    cases l with
    | run pool j n =>
      cases n with
      | zero => cases hop
      | succ n =>
        cases hop
        rfl
    | delete pool j n => cases n <;> cases hop
    | _ => cases hop

/-- `getThreadPool` leaves the servers, and the pools that there were: it adds
a pool at most. -/
theorem getThreadPool_eq {num : ℤ} {p : ℕ} (h : getThreadPool num d = (p, d')) :
    d'.servers = d.servers ∧ d.pools <+: d'.pools := by
  unfold getThreadPool at h
  split at h
  · obtain ⟨rfl, rfl⟩ := Prod.mk.inj h
    exact ⟨rfl, List.prefix_rfl⟩
  · obtain ⟨rfl, rfl⟩ := Prod.mk.inj h
    exact ⟨rfl, List.prefix_append ..⟩

/-- A server that was changed is still there, as it was or as the change makes
it. -/
theorem mem_onServer (n : ℕ) (f : Server → Server) {sv : Server} (h : sv ∈ d.servers) :
    ∃ sv' ∈ (d.onServer n f).servers, sv' = sv ∨ sv' = f sv := by
  obtain ⟨m, hm⟩ := List.getElem?_of_mem h
  by_cases hn : n = m
  · refine ⟨f sv, List.mem_of_getElem? (i := m) ?_, .inr rfl⟩
    simp [Data.onServer, hm, hn]
  · refine ⟨sv, List.mem_of_getElem? (i := m) ?_, .inl rfl⟩
    simp [Data.onServer, hm, hn]

/-- The server that was changed is there as the change makes it. -/
theorem mem_onServer_self {n : ℕ} (f : Server → Server) {sv : Server}
    (h : d.servers[n]? = some sv) : f sv ∈ (d.onServer n f).servers := by
  refine List.mem_of_getElem? (i := n) ?_
  simp [Data.onServer, h]

/-- No other server is there after a change than those that were there before,
each of them as it was or as the change makes it. -/
theorem of_mem_onServer {n : ℕ} {f : Server → Server} {sv' : Server}
    (h : sv' ∈ (d.onServer n f).servers) : ∃ sv ∈ d.servers, sv' = sv ∨ sv' = f sv := by
  obtain ⟨m, hm⟩ := List.getElem?_of_mem h
  rw [Data.onServer, List.getElem?_modify] at hm
  cases hd : d.servers[m]? with
  | none =>
    rw [hd] at hm
    cases hm
  | some sv =>
    refine ⟨sv, List.mem_of_getElem? hd, ?_⟩
    rw [hd] at hm
    split_ifs at hm
    · exact .inr (Option.some.inj hm).symm
    · exact .inl (Option.some.inj hm).symm

/-- Some server was started, and there are `Thread` objects. -/
def Staffed (d : Data) : Prop :=
  (∃ sv ∈ d.servers, sv.started = true) ∧ ∃ threads ∈ d.pools.map Pool.threads, threads ≠ []

/-- Who is careful does not destroy the pool then.  The two conditions of
`careful` are the two halves of `Staffed`, each of them denied. -/
theorem not_staffed {server : ℕ} (h : careful d (.destroy server) = true) : ¬ Staffed d := by
  rintro ⟨⟨sv, hsv, hstarted⟩, threads, hthreads, hne⟩
  obtain ⟨pool, hpool, rfl⟩ := List.mem_map.1 hthreads
  simp only [careful, Bool.and_eq_true, Bool.or_eq_true, List.all_eq_true] at h
  rcases h.2 with hall | hall
  · exact absurd (hall sv hsv) (by simp [hstarted])
  · exact hne (List.isEmpty_iff.1 (hall pool hpool))

/-- That a server was started, and that there are `Thread` objects, stays true:
no access resets `started`, and the pools lose no object. -/
theorem Access.staffed (h : Access ok d l d' k e) (hQ : Staffed d) : Staffed d' := by
  obtain ⟨⟨sv, hsv, hstarted⟩, threads, hthreads, hne⟩ := hQ
  cases h with
  | request h =>
    cases h with
    | construct hok hp =>
      obtain ⟨hservers, hpools⟩ := getThreadPool_eq hp
      refine ⟨⟨sv, List.mem_append_left _ (by rwa [hservers]), hstarted⟩, threads, ?_, hne⟩
      exact (hpools.map _).subset hthreads
    | getThreadPool hok hp =>
      obtain ⟨hservers, hpools⟩ := getThreadPool_eq hp
      exact ⟨⟨sv, by rwa [hservers], hstarted⟩, threads, (hpools.map _).subset hthreads, hne⟩
    | @start n sv' hok hsv' halive =>
      obtain ⟨sv₁, hsv₁, rfl | rfl⟩ :=
        mem_onServer n (fun sv => { sv with started := true }) hsv
      · exact ⟨⟨_, hsv₁, hstarted⟩, threads, hthreads, hne⟩
      · exact ⟨⟨_, hsv₁, rfl⟩, threads, hthreads, hne⟩
    | @destroy n sv' hok hsv' halive =>
      obtain ⟨sv₁, hsv₁, rfl | rfl⟩ :=
        mem_onServer n (fun sv => { sv with destroyed := true }) hsv
      · exact ⟨⟨_, hsv₁, hstarted⟩, threads, hthreads, hne⟩
      · exact ⟨⟨_, hsv₁, hstarted⟩, threads, hthreads, hne⟩
  | work hservers hthreads' _ _ _ =>
    exact ⟨⟨sv, by rwa [hservers], hstarted⟩, threads, by rwa [hthreads'], hne⟩
  | deleteThread => exact ⟨⟨sv, hsv, hstarted⟩, threads, hthreads, hne⟩
  | deleteEnd => exact ⟨⟨sv, hsv, hstarted⟩, threads, hthreads, hne⟩

/-- A thread becomes busy by starting a server whose pool has `Thread` objects.
Where the pool has none, `run()` starts nobody. -/
theorem Access.busy (h : Access ok d l d' k e) (hk : busy k) : busy l ∨ Staffed d' := by
  cases h with
  | request h =>
    cases h with
    | construct hok hp => exact hk.elim
    | getThreadPool hok hp => exact hk.elim
    | @start n sv hok hsv halive =>
      right
      refine ⟨⟨_, mem_onServer_self _ hsv, rfl⟩, d.threads sv.pool, ?_,
        List.ne_nil_of_length_pos hk⟩
      have hpos : 0 < (d.threads sv.pool).length := hk
      cases hpool : d.pools[sv.pool]? with
      | none => simp [Data.threads, hpool] at hpos
      | some pool =>
        rw [Data.threads, hpool]
        exact List.mem_map_of_mem (List.mem_of_getElem? hpool)
    | destroy hok hsv halive => exact hk.elim
  | work _ _ _ _ hbusy => exact .inl (hbusy hk)
  | deleteThread => exact hk.elim
  | deleteEnd => exact hk.elim

/-- **Workers exist only where a server was started and there are `Thread`
objects.**  A thread learns it by becoming busy, and what it has learned stays
true. -/
theorem learns_busy (ok : Data → Request → Bool) : Learns (prog (T := T) ok) busy Staffed where
  stay := busy_of_leads
  create hop _ := busy_of_create hop
  act hop hf hk := (access hop hf).busy hk
  stable hop hf hQ := (access hop hf).staffed hQ

end access

/-! ### The two phases -/

/-- No server was destroyed, and nothing of the pool deleted. -/
structure Before (s : State T) : Prop where
  servers : ∀ sv ∈ s.data.servers, sv.destroyed = false
  alive : destroyed s.events = []
  whole : deleted s.events = []
  nobody : ∀ t, (s.th t).mark deleting = none

/-- The one server that is ever destroyed was; `t` is deleting the pool, or it
is gone. -/
structure After (s : State T) : Prop where
  servers : ∃ sv ∈ s.data.servers, sv.destroyed = true
  idle : ∀ t, ¬ (s.th t).In busy
  fresh : Fresh s.events
  one : (destroyed s.events = [] ∧ ∃ t, ∀ u, u ≠ t → (s.th u).mark deleting = none) ∨
    ∃ p, destroyed s.events = [p] ∧ ∀ t, (s.th t).mark deleting = none

/-- Nobody is careful to ask for anything after a destruction, whatever the
request. -/
theorem not_careful {d : Data} {r : Request} (h : ∃ sv ∈ d.servers, sv.destroyed = true) :
    ¬ careful d r = true := by
  obtain ⟨sv, hsv, hdestroyed⟩ := h
  have hall : (d.servers.all fun sv => !sv.destroyed) = false := by
    rw [List.all_eq_false]
    exact ⟨sv, hsv, by simp [hdestroyed]⟩
  cases r <;> simp [careful, hall]

/-- An event that returns no pool keeps what was returned fresh. -/
theorem Fresh.append {ev : List Event} (h : Fresh ev) {e : Event} (he : ∀ p, e ≠ .returned p) :
    Fresh (ev ++ [e]) := by
  intro n p hn
  rcases Nat.lt_or_ge n ev.length with hlt | hge
  · rw [List.getElem?_append_left hlt] at hn
    rw [List.take_append_of_le_length hlt.le]
    exact h n p hn
  · rw [List.getElem?_append_right hge, List.getElem?_singleton] at hn
    split_ifs at hn
    exact absurd (Option.some.inj hn) (he p)

/-- Where nothing was destroyed, everything returned is fresh.  This covers all
of the first phase. -/
theorem fresh_of_nil {ev : List Event} (h : destroyed ev = []) : Fresh ev := by
  intro n p _ hp
  have hsub : destroyed (ev.take n) ⊆ destroyed ev :=
    List.filterMap_subset _ (List.take_subset n ev)
  have hmem := hsub hp
  rw [h] at hmem
  cases hmem

section steps

variable [DecidableEq T] {s s' : State T} {t : T}

omit [DecidableEq T] in
/-- A step other than an access leaves the first phase: it changes neither the
data nor the events, and leads nobody into `~ThreadPool`. -/
theorem Before.quiet (h : Before s) (hq : Quiet (prog careful) s t s') : Before s' where
  servers := by
    rw [hq.data]
    exact h.servers
  alive := by
    rw [St.events, hq.log]
    exact h.alive
  whole := by
    rw [St.events, hq.log]
    exact h.whole
  nobody u := by
    rw [steady_deleting.quiet hq u]
    exact h.nobody u

omit [DecidableEq T] in
/-- A step other than an access leaves the second phase as well.  It makes
nobody busy, as only a busy thread could start another. -/
theorem After.quiet (h : After s) (hq : Quiet (prog careful) s t s') : After s' where
  servers := by
    rw [hq.data]
    exact h.servers
  idle u := by
    rintro ⟨k, hplace, hk⟩
    have hmoves := hq.moves u
    rw [hplace] at hmoves
    generalize hp : some k = p at hmoves
    cases hmoves with
    | stays => exact h.idle u ⟨k, hp.symm, hk⟩
    | goes ht hut hact hlk =>
      cases hp
      exact h.idle t ⟨_, by rw [ht]; rfl, busy_of_leads hact hlk hk⟩
    | begins ht hop hunborn => exact h.idle t ⟨_, by rw [ht]; rfl, busy_of_create hop⟩
  fresh := by
    rw [St.events, hq.log]
    exact h.fresh
  one := by
    rw [St.events, hq.log]
    rcases h.one with ⟨hd, v, hv⟩ | ⟨p, hd, hnone⟩
    · refine .inl ⟨hd, v, fun u hu => ?_⟩
      rw [steady_deleting.quiet hq u]
      exact hv u hu
    · refine .inr ⟨p, hd, fun u => ?_⟩
      rw [steady_deleting.quiet hq u]
      exact hnone u

/-- **An access before the destruction** leaves the phase or begins the
destruction.  It begins it where a server is destroyed, and then no thread is
busy, since a careful caller destroys none where there may be workers. -/
theorem Before.act (h : Before s) (hbusy : ∀ u, (s.th u).In busy → Staffed s.data) {l k : Pc}
    {d : Data} {e : List Event} (hl : s.th t = .run l) (ha : Access careful s.data l d k e) :
    Before ((s.record t d e).put t (.run k)) ∨ After ((s.record t d e).put t (.run k)) := by
  have hmark : ∀ u, (s.th u).mark deleting = none := h.nobody
  have hnot : deleting l = none := by
    have hm := hmark t
    rwa [hl] at hm
  have hstay : deleting k = none → ∀ u,
      (((s.record t d e).put t (.run k)).th u).mark deleting = none := fun hk u => by
    rw [mark_put]
    split_ifs
    · exact hk
    · exact hmark u
  cases ha with
  | request hr =>
    cases hr with
    | construct hok hp =>
      obtain ⟨hservers, -⟩ := getThreadPool_eq hp
      refine .inl ⟨fun sv hsv => ?_, by simp [h.alive], by simp [h.whole], hstay rfl⟩
      rcases List.mem_append.1 hsv with hold | hnew
      · rw [hservers] at hold
        exact h.servers sv hold
      · rw [List.mem_singleton.1 hnew]
    | getThreadPool hok hp =>
      obtain ⟨hservers, -⟩ := getThreadPool_eq hp
      refine .inl ⟨fun sv hsv => ?_, by simp [h.alive], by simp [h.whole], hstay rfl⟩
      have hold : sv ∈ s.data.servers := hservers ▸ hsv
      exact h.servers sv hold
    | start hok hsv halive =>
      refine .inl ⟨fun sv hsv => ?_, by simp [h.alive], by simp [h.whole], hstay rfl⟩
      obtain ⟨sv₀, hsv₀, rfl | rfl⟩ := of_mem_onServer hsv
      · exact h.servers sv hsv₀
      · exact h.servers sv₀ hsv₀
    | destroy hok hsv halive =>
      refine .inr ⟨⟨_, mem_onServer_self _ hsv, rfl⟩, fun u => ?_, ?_, .inl ⟨?_, t, fun u hu => ?_⟩⟩
      · rintro ⟨k, hplace, hk⟩
        rw [St.put_th] at hplace
        by_cases hut : u = t
        · subst hut
          rw [Function.update_self] at hplace
          cases hplace
          exact hk
        · rw [Function.update_of_ne hut] at hplace
          exact not_staffed hok (hbusy u ⟨k, hplace, hk⟩)
      · exact fresh_of_nil (by simp [h.alive])
      · simp [h.alive]
      · rw [mark_put, if_neg hu]
        exact hmark u
  | work hservers _ _ hk _ =>
    refine .inl ⟨fun sv hsv => ?_, by simp [h.alive], by simp [h.whole], hstay hk⟩
    have hold : sv ∈ s.data.servers := hservers ▸ hsv
    exact h.servers sv hold
  | deleteThread => cases hnot
  | deleteEnd => cases hnot

/-- **An access after the destruction has begun** goes on with it, or has
nothing to do with it.  No request is left that a careful caller could make. -/
theorem After.act (h : After s) {l k : Pc} {d : Data} {e : List Event} (hl : s.th t = .run l)
    (ha : Access careful s.data l d k e) : After ((s.record t d e).put t (.run k)) := by
  have hidle : ¬ busy k → ∀ u, ¬ (((s.record t d e).put t (.run k)).th u).In busy := by
    rintro hk u ⟨k', hplace, hk'⟩
    rw [St.put_th] at hplace
    by_cases hut : u = t
    · subst hut
      rw [Function.update_self] at hplace
      cases hplace
      exact hk hk'
    · rw [Function.update_of_ne hut] at hplace
      exact h.idle u ⟨k', hplace, hk'⟩
  -- a thread that is deleting is the one that the phase allows
  have hone : deleting l ≠ none → destroyed s.events = [] ∧
      ∀ u, u ≠ t → (s.th u).mark deleting = none := fun hdel => by
    have hmark : (s.th t).mark deleting ≠ none := by
      rw [hl]
      exact hdel
    rcases h.one with ⟨hd, v, hv⟩ | ⟨p, hd, hnone⟩
    · obtain rfl : t = v := by
        by_contra hne
        exact hmark (hv t hne)
      exact ⟨hd, hv⟩
    · exact absurd (hnone t) hmark
  cases ha with
  | request hr =>
    cases hr with
    | construct hok hp => exact absurd hok (not_careful h.servers)
    | getThreadPool hok hp => exact absurd hok (not_careful h.servers)
    | start hok hsv halive => exact absurd hok (not_careful h.servers)
    | destroy hok hsv halive => exact absurd hok (not_careful h.servers)
  | work hservers _ _ hk hbusy =>
    refine ⟨?_, hidle fun hk => h.idle t ⟨l, by rw [hl]; rfl, hbusy hk⟩, ?_, ?_⟩
    · obtain ⟨sv, hsv, hdestroyed⟩ := h.servers
      exact ⟨sv, hservers ▸ hsv, hdestroyed⟩
    · simpa using h.fresh
    · simp only [mark_put, St.put_events, St.record_events, List.append_nil]
      rcases h.one with ⟨hd, v, hv⟩ | ⟨p, hd, hnone⟩
      · refine .inl ⟨hd, v, fun u hu => ?_⟩
        split_ifs
        · exact hk
        · exact hv u hu
      · refine .inr ⟨p, hd, fun u => ?_⟩
        split_ifs
        · exact hk
        · exact hnone u
  | deleteThread =>
    obtain ⟨hd, hothers⟩ := hone nofun
    refine ⟨h.servers, hidle id, ?_, .inl ⟨by simp [hd], t, fun u hu => ?_⟩⟩
    · simpa using h.fresh.append fun p hp => by cases hp
    · rw [mark_put, if_neg hu]
      exact hothers u hu
  | @deleteEnd p i =>
    obtain ⟨hd, hothers⟩ := hone nofun
    refine ⟨h.servers, hidle id, ?_, .inr ⟨p, by simp [hd], fun u => ?_⟩⟩
    · simpa using h.fresh.append fun p hp => by cases hp
    · rw [mark_put]
      split_ifs with hu
      · rfl
      · exact hothers u hu

/-- **In every run of a careful caller one of the two phases holds,** by
induction on the run.  The step from the first to the second is the request to
destroy a server. -/
theorem before_or_after (hs : (sys careful).Reachable s) : Before s ∨ After s := by
  refine hs.invariant (I := fun s => Before s ∨ After s) (fun s h => .inl ?_) ?_
  · refine ⟨by simp [h.data], by simp [St.events, h.log], by simp [St.events, h.log], fun t => ?_⟩
    rcases h.th t with ht | ht <;> rw [ht] <;> rfl
  · rintro s s' hr h ⟨t, hst | hw⟩
    · have hbusy : ∀ u, (s.th u).In busy → Staffed s.data := by
        refine (learns_busy careful).known (fun s u h => ?_) hr
        rintro ⟨l, hplace, hl⟩
        rcases h.th u with hu | hu <;> rw [hu] at hplace <;> cases hplace
        exact hl
      rcases hst.quiet_or_act with hq | ⟨l, f, i, d, k, e, hl, hop, hf, rfl⟩
      · exact h.imp (·.quiet hq) (·.quiet hq)
      · rcases h with h | h
        · exact h.act hbusy hl (access hop hf)
        · exact .inr (h.act hl (access hop hf))
    · have hplace : ∀ u, (s'.th u).place = (s.th u).place := hw.place
      obtain ⟨-⟩ := hw
      refine h.imp (fun h => ⟨h.servers, h.alive, h.whole, fun u => ?_⟩)
        fun h => ⟨h.servers, fun u => ?_, h.fresh, ?_⟩
      · rw [Status.mark, hplace u]
        exact h.nobody u
      · rw [Status.In, hplace u]
        exact h.idle u
      · simp only [Status.mark, hplace]
        exact h.one

omit [DecidableEq T] in
/-- The next step of a worker is that of a busy thread. -/
theorem in_busy_of_mark {β : Type*} {mark : Pc → Option β} (hmark : ∀ l b, mark l = some b → busy l)
    {b : β} (h : (s.th t).mark mark = some b) : (s.th t).In busy := by
  obtain ⟨l, hplace, hb⟩ := Option.bind_eq_some_iff.1 h
  exact ⟨l, hplace, hmark l b hb⟩

/-- **Ownership is sound for a careful caller.**  In every run in which a
server is destroyed only if none was destroyed before, and none was started or
the pool has no threads, and nothing is asked for after that: no pool is
destroyed twice, no pool is returned that was destroyed before, and no step of
a worker works on a pool or a `Thread` object that was destroyed. -/
theorem sound_of_careful (hs : (sys careful).Reachable s) : Sound s := by
  have hpool : ∀ l p, onPool l = some p → busy l := by
    intro l p hp
    cases l <;> trivial
  have hthread : ∀ l td, onThread l = some td → busy l := by
    intro l td htd
    cases l <;> trivial
  rcases before_or_after hs with h | h
  · refine ⟨by simp [h.alive], fresh_of_nil h.alive, fun t s' p _ _ => ?_, fun t s' td _ _ => ?_⟩
    · simp [h.alive]
    · simp [h.whole]
  · refine ⟨?_, h.fresh, fun t s' p _ hp => ?_, fun t s' td _ htd => ?_⟩
    · rcases h.one with ⟨hd, -⟩ | ⟨p, hd, -⟩ <;> simp [hd]
    · exact absurd (in_busy_of_mark hpool hp) (h.idle t)
    · exact absurd (in_busy_of_mark hthread htd) (h.idle t)

end steps

/-- Two threads, no pool and no server yet. -/
def atStart : State (Fin 2) :=
  ⟨fun _ => none, fun x => x.elim, fun _ => .run .main, ⟨none, [], []⟩, []⟩

/-- The runs below begin with no pool and no server. -/
theorem reachable_atStart (ok : Data → Request → Bool) : (sys ok).Reachable atStart :=
  .init ⟨fun _ => rfl, fun _ => .inr rfl, rfl, rfl⟩

/-- Two servers are constructed and one of them is destroyed. -/
theorem sound_of_careful_two : ∃ s : State (Fin 2), returned s.events = [0, 0] ∧
    destroyed s.events = [0] ∧ Sound s := by
  obtain ⟨s, hs, hreturned, hdestroyed⟩ : ∃ s, replay (prog careful) atStart
      [(caller, .input (.request .construct)), (caller, .input (.request .construct)),
        (caller, .input (.request (.destroy 0))), (caller, .input .step), (caller, .input .step),
        (caller, .input .step), (caller, .input .step)] = some s ∧
      returned s.events = [0, 0] ∧ destroyed s.events = [0] := ⟨_, rfl, rfl, rfl⟩
  exact ⟨s, hreturned, hdestroyed,
    sound_of_careful (replay_reachable _ (reachable_atStart careful) hs)⟩

/-- **The pool is destroyed twice:** two servers are constructed and both are
destroyed, and in between `getThreadPool` returns the pool that is gone. -/
theorem destroyed_twice : ∃ s : State (Fin 2), (sys System.anything).Reachable s ∧
    destroyed s.events = [0, 0] ∧ ¬ Fresh s.events ∧ ¬ Sound s := by
  obtain ⟨s, hs, hdestroyed, hreturned, hbefore⟩ : ∃ s, replay (prog System.anything) atStart
      [(caller, .input (.request .construct)), (caller, .input (.request .construct)),
        (caller, .input (.request (.destroy 0))), (caller, .input .step), (caller, .input .step),
        (caller, .input .step), (caller, .input .step),
        (caller, .input (.request (.getThreadPool ThreadPool.gThreadNum))),
        (caller, .input (.request (.destroy 1))), (caller, .input .step), (caller, .input .step),
        (caller, .input .step), (caller, .input .step)] = some s ∧
      destroyed s.events = [0, 0] ∧ s.events[6]? = some (.returned 0) ∧
      destroyed (s.events.take 6) = [0] := ⟨_, rfl, rfl, rfl, rfl⟩
  refine ⟨s, replay_reachable _ (reachable_atStart System.anything) hs, hdestroyed, fun h => ?_,
    fun h => ?_⟩
  · exact h 6 0 hreturned (by rw [hbefore]; exact .head _)
  · have hnodup := h.once
    rw [hdestroyed] at hnodup
    exact absurd hnodup (by decide)

end Ownership
end OSNetWorkCode
