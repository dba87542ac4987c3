/-
# When `service` echoes its input unchanged

One call of `service`, from entering it to its return, under any answers of the
kernel: `perform` makes its calls one after the other, and what it makes is
what a worker of the pool makes (`reachable_perform`, `worker_echoes`).
`Serving` is the invariant: the calls so far are a list of rounds, in each of
which a piece was read and its C string handed to `write`, and the descriptor
is closed by the last call and no other.

The string of a piece is the piece if and only if there is no zero byte in it.
So with complete writes the bytes written are the bytes read if and only if
there is no zero byte in the stream (`written_eq_iff`), however it was cut into
pieces.
-/

import OSNetWorkCode.TcpServer.Isolation

namespace OSNetWorkCode
namespace TcpServer

open CString Net Pthread ThreadPool

/-! ### Strings of pieces -/

/-- A string is no longer than the bytes it is read from. -/
theorem length_text_le (bytes : List UInt8) : (text bytes).length ≤ bytes.length :=
  (text_initial bytes).length_le

/-- The string of a piece is the piece if and only if no zero byte is in it.
To compare lengths is enough, since the string is a beginning of the piece. -/
theorem length_text_eq_iff (bytes : List UInt8) :
    (text bytes).length = bytes.length ↔ 0 ∉ bytes := by
  constructor
  · intro hlen h0
    rw [← (text_initial bytes).eq_of_length hlen] at h0
    simpa using List.mem_takeWhile_imp h0
  · intro h0
    rw [text_eq_self h0]

/-- The strings of the pieces are no longer together than the pieces: a string
ends at the first zero byte. -/
theorem length_flatten_text_le (chunks : List (List UInt8)) :
    (chunks.map text).flatten.length ≤ chunks.flatten.length := by
  induction chunks with
  | nil => exact Nat.le_refl 0
  | cons bytes chunks ih =>
    have hle := length_text_le bytes
    simp only [List.map_cons, List.flatten_cons, List.length_append]
    omega

/-- **The strings of the pieces are the stream if and only if there is no zero
byte in it.**  No piece can make up for what another one has lost. -/
theorem flatten_text_iff (chunks : List (List UInt8)) :
    (chunks.map text).flatten = chunks.flatten ↔ 0 ∉ chunks.flatten := by
  induction chunks with
  | nil => simp
  | cons bytes chunks ih =>
    have hbytes := length_text_le bytes
    have hchunks := length_flatten_text_le chunks
    rw [List.map_cons, List.flatten_cons, List.flatten_cons, List.mem_append, not_or, ← ih,
      ← length_text_eq_iff]
    constructor
    · intro heq
      have hlen := congrArg List.length heq
      rw [List.length_append, List.length_append] at hlen
      have hfirst : (text bytes).length = bytes.length := by omega
      refine ⟨hfirst, ?_⟩
      rw [(text_initial bytes).eq_of_length hfirst] at heq
      exact List.append_cancel_left heq
    · rintro ⟨hfirst, hrest⟩
      rw [(text_initial bytes).eq_of_length hfirst, hrest]

/-! ### One call of `service` -/

/-- The calls made from a place on, one for each answer of the kernel: where
they lead, what they leave and what happens on the connections. -/
def perform : Place → Sockets → List Input → Option (Place × Sockets × List Event)
  | u, x, [] => some (u, x, [])
  | u, x, i :: inputs =>
    match server.op u with
    | .act f =>
      match f i x with
      | some (.next x' u' vs) => (perform u' x' inputs).map fun r => (r.1, r.2.1, vs ++ r.2.2)
      | _ => none
    | _ => none

/-- The first answer makes the first call, and the others go on from there. -/
theorem perform_act {u u' : Place} {x x' : Sockets} {i : Input} {f} {vs : List Event}
    (hop : server.op u = .act f) (hf : f i x = some (.next x' u' vs)) (inputs : List Input) :
    perform u x (i :: inputs) =
      (perform u' x' inputs).map fun r => (r.1, r.2.1, vs ++ r.2.2) := by
  rw [perform, hop]
  dsimp only
  rw [hf]

/-- The first of the calls, taken off: the way in which runs of `service` are
gone through, by induction on the answers of the kernel. -/
theorem perform_cons {u u' : Place} {x x' : Sockets} {i : Input} {inputs : List Input} {vs}
    (h : perform u x (i :: inputs) = some (u', x', vs)) : ∃ f u₁ x₁ vs₁ vs₂,
      server.op u = .act f ∧ f i x = some (.next x₁ u₁ vs₁) ∧
        perform u₁ x₁ inputs = some (u', x', vs₂) ∧ vs = vs₁ ++ vs₂ := by
  rw [perform] at h
  split at h
  · rename_i f hop
    split at h
    · rename_i x₁ u₁ vs₁ hf
      rw [Option.map_eq_some_iff] at h
      obtain ⟨⟨u₂, x₂, vs₂⟩, hrest, heq⟩ := h
      cases heq
      exact ⟨f, u₁, x₁, vs₁, vs₂, hop, hf, hrest, rfl⟩
    · cases h
  · cases h

/-- A piece read on a connection and its string handed to `write`, with what
`write` made of it. -/
def round (c : ℕ) (p : List UInt8 × Option ℕ) : List Event :=
  [.read c p.1, .wrote c (text p.1) p.2]

/-- Where a call of `service` stands and what it has done on the connection
`c`: rounds, and at `write` the read of one more. -/
inductive Serving (task : Task) (x : Sockets) (c : ℕ) : Place → Sockets → List Event → Prop
  | enter : Serving task x c (.service task) x []
  | read {buffer} (rounds : List (List UInt8 × Option ℕ)) :
      Serving task x c (.serviceRead task buffer) x (rounds.flatMap (round c))
  | write {buffer} (rounds : List (List UInt8 × Option ℕ)) (bytes : List UInt8)
      (htext : text buffer.1 = text bytes) :
      Serving task x c (.serviceWrite task buffer) x (rounds.flatMap (round c) ++ [.read c bytes])
  | close (rounds : List (List UInt8 × Option ℕ)) :
      Serving task x c (.serviceClose task) x (rounds.flatMap (round c))
  | served (rounds : List (List UInt8 × Option ℕ)) :
      Serving task x c .served { x with conn := Function.update x.conn task.sock none }
        (rounds.flatMap (round c) ++ [.closed c])

section serving

variable {task : Task} {x : Sockets} {c : ℕ}

/-- **Every call of `service` goes on with the rounds.**  A read begins the
next one, a write ends it, and the close comes behind all of them. -/
theorem Serving.step (hc : x.conn task.sock = some c) {u u' : Place} {x₁ x' : Sockets}
    {vs vs' : List Event} {f i} (h : Serving task x c u x₁ vs) (hop : server.op u = .act f)
    (hf : f i x₁ = some (.next x' u' vs')) : Serving task x c u' x' (vs ++ vs') := by
  have hserved := TcpServer.served hop hf
  cases h with
  | enter =>
    cases hserved with
    | enter => exact .read []
  | read rounds =>
    cases hserved with
    | @read _ _ c' bytes fits hc' =>
      obtain rfl : c = c' := Option.some.inj (hc.symm.trans hc')
      exact .write rounds bytes (text_fill _ bytes fits)
    | hungUp =>
      rw [List.append_nil]
      exact .close rounds
  | write rounds bytes htext =>
    cases hserved with
    | @write _ _ c' n r hc' hn =>
      obtain rfl : c = c' := Option.some.inj (hc.symm.trans hc')
      rw [take_strlen hn, htext, List.append_assoc]
      have hround : rounds.flatMap (round c) ++ ([.read c bytes] ++ [.wrote c (text bytes) r]) =
          (rounds ++ [(bytes, r)]).flatMap (round c) := by
        simp [round]
      rw [hround]
      exact .read _
  | close rounds =>
    cases hserved with
    | @close _ c' hc' =>
      obtain rfl : c = c' := Option.some.inj (hc.symm.trans hc')
      exact .served rounds
  | served rounds => cases hop

/-- **A call of `service` is a list of rounds and a close,** under any answers
of the kernel.  By induction on the answers. -/
theorem Serving.perform (hc : x.conn task.sock = some c) :
    ∀ (inputs : List Input) {u u' : Place} {x₁ x' : Sockets} {vs vs' : List Event},
      Serving task x c u x₁ vs → perform u x₁ inputs = some (u', x', vs') →
      Serving task x c u' x' (vs ++ vs')
  | [], u, u', x₁, x', vs, vs', h, hp => by
    cases hp
    rw [List.append_nil]
    exact h
  | i :: inputs, u, u', x₁, x', vs, vs', h, hp => by
    obtain ⟨f, u₂, x₂, vs₁, vs₂, hop, hf, hrest, rfl⟩ := perform_cons hp
    rw [← List.append_assoc]
    exact Serving.perform hc inputs (h.step hc hop hf) hrest

end serving

/-! ### What is read and what is written -/

/-- The bytes read on a connection. -/
def received (c : ℕ) (vs : List Event) : List UInt8 := (reads c vs).flatten

/-- The bytes that `write` took on a connection. -/
def written (c : ℕ) (vs : List Event) : List UInt8 :=
  vs.flatMap fun
    | .wrote c' bytes (some n) => if c' = c then bytes.take n else []
    | _ => []

/-- Every `write` took all it was handed. -/
def Complete (vs : List Event) : Prop := ∀ c bytes r, .wrote c bytes r ∈ vs → r = some bytes.length

section rounds

variable {c : ℕ} {rounds : List (List UInt8 × Option ℕ)}

/-- What is received in rounds are their pieces, one after the other. -/
theorem received_rounds :
    received c (rounds.flatMap (round c)) = (rounds.map Prod.fst).flatten := by
  induction rounds with
  | nil => rfl
  | cons p rounds ih =>
    have hround : talk c (round c p) = [.read p.1, .wrote (text p.1)] := by
      simp [talk, round, Event.io]
    rw [received, reads] at ih ⊢
    rw [List.flatMap_cons, talk_append, hround, List.map_cons, List.flatten_cons, ← ih]
    rfl

/-- What is written in rounds are the strings of their pieces, where each write
took all it was handed. -/
theorem written_rounds (h : ∀ p ∈ rounds, p.2 = some (text p.1).length) :
    written c (rounds.flatMap (round c)) = ((rounds.map Prod.fst).map text).flatten := by
  induction rounds with
  | nil => rfl
  | cons p rounds ih =>
    have hrest := ih fun q hq => h q (List.mem_cons_of_mem p hq)
    have hround : written c (round c p) = text p.1 := by
      simp [written, round, h p List.mem_cons_self]
    rw [written] at hrest hround ⊢
    rw [List.flatMap_cons, List.flatMap_append, hround, hrest, List.map_cons, List.map_cons,
      List.flatten_cons]

/-- No round closes anything. -/
theorem closed_notMem_rounds (c' : ℕ) : Event.closed c' ∉ rounds.flatMap (round c) := by
  simp [round]

/-- The close reads nothing. -/
theorem received_closed (vs : List Event) : received c (vs ++ [.closed c]) = received c vs := by
  simp [received, reads, talk, Event.io]

/-- The close writes nothing. -/
theorem written_closed (vs : List Event) : written c (vs ++ [.closed c]) = written c vs := by
  simp [written]

end rounds

/-- **With complete writes the bytes written are the bytes read if and only if
there is no zero byte among them.** -/
theorem written_eq_iff {c : ℕ} {rounds : List (List UInt8 × Option ℕ)}
    (hcomplete : Complete (rounds.flatMap (round c) ++ [.closed c])) :
    written c (rounds.flatMap (round c) ++ [.closed c]) =
        received c (rounds.flatMap (round c) ++ [.closed c]) ↔
      0 ∉ received c (rounds.flatMap (round c) ++ [.closed c]) := by
  have hall : ∀ p ∈ rounds, p.2 = some (text p.1).length := fun p hp => by
    refine hcomplete c (text p.1) p.2 (List.mem_append_left _ ?_)
    exact List.mem_flatMap.2 ⟨p, hp, by simp [round]⟩
  rw [written_closed, received_closed, written_rounds hall, received_rounds, flatten_text_iff]

/-! ### Every stream, cut into any pieces -/

/-- A piece that `read` can deliver. -/
structure Chunk where
  bytes : List UInt8
  pos : bytes ≠ []
  fits : bytes.length ≤ serviceSize - 1

/-- How a stream ends. -/
inductive Ending
  | eof
  | error

/-- What `read` gives at the end of the stream. -/
def Ending.result : Ending → ReadResult
  | .eof => .eof
  | .error => .error

/-- A piece is read and all of its string is written. -/
def Chunk.answers (chunk : Chunk) : List Input :=
  [.read (.data chunk.bytes chunk.pos chunk.fits), .write (some (text chunk.bytes).length)]

/-- The answers of the kernel to a call of `service`. -/
def conversation (buffer : Buffer) (chunks : List Chunk) (last : Ending) : List Input :=
  .stack buffer :: (chunks.flatMap Chunk.answers ++ [.read last.result, .step])

/-- The round made of a piece. -/
def Chunk.round (chunk : Chunk) : List UInt8 × Option ℕ :=
  (chunk.bytes, some (text chunk.bytes).length)

section conversation

variable {task : Task} {x : Sockets} {c : ℕ}

/-- **`service` returns** when the stream ends, whatever came before.  By
induction on the pieces: each makes one round and leads back to the `read`. -/
theorem perform_chunks (hc : x.conn task.sock = some c) (last : Ending) :
    ∀ (chunks : List Chunk) (buffer : Buffer), perform (.serviceRead task buffer) x
      (chunks.flatMap Chunk.answers ++ [.read last.result, .step]) =
        some (.served, { x with conn := Function.update x.conn task.sock none },
          (chunks.map Chunk.round).flatMap (TcpServer.round c) ++ [.closed c])
  | [], buffer => by
    have hread : read task buffer (.read last.result) x =
        some (.next x (.serviceClose task) []) := by
      cases last <;> simp only [Ending.result, read, hc]
    have hclose : close task .step x = some (.next
        { x with conn := Function.update x.conn task.sock none } .served [.closed c]) := by
      simp only [close, hc]
    rw [List.flatMap_nil, List.nil_append, perform_act rfl hread, perform_act rfl hclose]
    rfl
  | chunk :: chunks, buffer => by
    have hzero : 0 ∈ (fill buffer chunk.bytes chunk.fits).1 := zero_mem_fill chunk.bytes chunk.fits
    have hlen : strlen (fill buffer chunk.bytes chunk.fits).1 = some (text chunk.bytes).length := by
      rw [strlen, if_pos hzero, text_fill]
    have htake := (take_strlen hlen).trans (text_fill buffer chunk.bytes chunk.fits)
    have hread : read task buffer (.read (.data chunk.bytes chunk.pos chunk.fits)) x =
        some (.next x (.serviceWrite task (fill buffer chunk.bytes chunk.fits))
          [.read c chunk.bytes]) := by
      simp only [read, hc]
    have hwrite : write task (fill buffer chunk.bytes chunk.fits)
        (.write (some (text chunk.bytes).length)) x =
          some (.next x (.serviceRead task (fill buffer chunk.bytes chunk.fits))
            [.wrote c (text chunk.bytes) (some (text chunk.bytes).length)]) := by
      simp only [write, hc, hlen, htake]
    rw [List.flatMap_cons, Chunk.answers, List.cons_append, List.cons_append, List.cons_append,
      List.cons_append, List.nil_append, perform_act rfl hread, perform_act rfl hwrite,
      perform_chunks hc last chunks]
    rfl

/-- From its entry on `service` makes a round of each piece, then closes and
returns. -/
theorem perform_conversation (hc : x.conn task.sock = some c) (buffer : Buffer)
    (chunks : List Chunk) (last : Ending) :
    perform (.service task) x (conversation buffer chunks last) =
      some (.served, { x with conn := Function.update x.conn task.sock none },
        (chunks.map Chunk.round).flatMap (TcpServer.round c) ++ [.closed c]) := by
  rw [conversation, perform_act (f := enter task) rfl rfl, perform_chunks hc last chunks buffer]
  rfl

/-- What is read are the pieces, one after the other. -/
theorem received_chunks (chunks : List Chunk) :
    received c ((chunks.map Chunk.round).flatMap (round c) ++ [.closed c]) =
      (chunks.map Chunk.bytes).flatten := by
  rw [received_closed, received_rounds, List.map_map]
  rfl

/-- All writes of such a conversation are complete. -/
theorem complete_chunks (chunks : List Chunk) :
    Complete ((chunks.map Chunk.round).flatMap (round c) ++ [.closed c]) := by
  intro c' bytes r hmem
  simp [round, Chunk.round] at hmem
  obtain ⟨chunk, -, -, rfl, rfl⟩ := hmem
  rfl

/-- **`service` echoes its input unchanged if and only if there is no zero byte
in it.**  Whatever the kernel answers, a call of `service` that has come to its
return has closed its descriptor with its last call and with no other, so that
nothing is written after that; and if all writes were complete, the bytes
written are the bytes read just if none of them is zero.  For every stream, cut
into any pieces of 1 to 1023 bytes and ended by end-of-file or an error,
`service` does return, having read all of it. -/
theorem service_echoes (task : Task) (x : Sockets) (c : ℕ) (hc : x.conn task.sock = some c) :
    (∀ inputs x' vs, perform (.service task) x inputs = some (.served, x', vs) →
      (∃ before, vs = before ++ [.closed c] ∧ ∀ c', .closed c' ∉ before) ∧
        x'.conn task.sock = none ∧
        (Complete vs → (written c vs = received c vs ↔ 0 ∉ received c vs))) ∧
    ∀ buffer chunks last, ∃ x' vs,
      perform (.service task) x (conversation buffer chunks last) = some (.served, x', vs) ∧
        Complete vs ∧ received c vs = (chunks.map Chunk.bytes).flatten := by
  constructor
  · intro inputs x' vs hp
    have hserving := Serving.perform hc inputs .enter hp
    rw [List.nil_append] at hserving
    cases hserving with
    | served rounds =>
      exact ⟨⟨_, rfl, closed_notMem_rounds⟩, Function.update_self .., written_eq_iff⟩
  · intro buffer chunks last
    exact ⟨_, _, perform_conversation hc buffer chunks last, complete_chunks chunks,
      received_chunks chunks⟩

end conversation

/-- A connection under descriptor 4. -/
def oneOpen : Sockets := ⟨Function.update (fun _ => none) 4 (some 0), 1⟩

/-- `127.0.0.1`, port `8080`, under descriptor 4. -/
def localTask : Task := ⟨4, ⟨(127, 0, 0, 1), (31, 144)⟩⟩

/-- `"hi"` comes back, as there is no zero byte in it. -/
theorem service_echoes_hi : ∃ buffer x' vs, perform (.service localTask) oneOpen
      (conversation buffer [⟨[104, 105], by decide, by decide⟩] .eof) = some (.served, x', vs) ∧
    written 0 vs = [104, 105] := by
  obtain ⟨hcall, hreturns⟩ := service_echoes localTask oneOpen 0 rfl
  obtain ⟨x', vs, hp, hcomplete, hreceived⟩ :=
    hreturns ⟨List.replicate serviceSize 0, List.length_replicate⟩
      [⟨[104, 105], by decide, by decide⟩] .eof
  refine ⟨_, x', vs, hp, ?_⟩
  have hno : 0 ∉ received 0 vs := by
    rw [hreceived]
    decide
  rw [((hcall _ _ _ hp).2.2 hcomplete).2 hno, hreceived]
  rfl

/-- **A zero byte does not come back:** it is read, nothing is written, and the
descriptor is closed. -/
theorem zero_is_lost : ∃ buffer x' vs, perform (.service localTask) oneOpen
      (conversation buffer [⟨[0], by decide, by decide⟩] .eof) = some (.served, x', vs) ∧
    Complete vs ∧ received 0 vs = [0] ∧ written 0 vs = [] := by
  have hc : oneOpen.conn localTask.sock = some 0 := rfl
  exact ⟨⟨List.replicate serviceSize 0, List.length_replicate⟩, _, _,
    perform_conversation hc _ _ _, complete_chunks _, by decide, by decide⟩

/-! ### The call in a worker of the pool -/

/-- **A worker can make these calls one after the other,** from any state that
the server reaches: `service` takes no lock and waits for no other thread. -/
theorem reachable_perform {T : Type*} [DecidableEq T] {num : ℕ} {t : T} {worker : Bool} :
    ∀ (inputs : List Input) {s : State T} {u u' : Place} {x' : Sockets} {vs : List Event},
      (sys num).Reachable s → s.th t = .run (.user worker u) →
      perform u s.data.user inputs = some (u', x', vs) →
      ∃ s', (sys num).Reachable s' ∧ s'.th t = .run (.user worker u') ∧ s'.data.user = x' ∧
        userEvents s'.events = userEvents s.events ++ vs
  | [], s, u, u', x', vs, hs, ht, hp => by
    cases hp
    exact ⟨s, hs, ht, rfl, (List.append_nil _).symm⟩
  | i :: inputs, s, u, u', x', vs, hs, ht, hp => by
    obtain ⟨f, u₁, x₁, vs₁, vs₂, hop, hf, hrest, rfl⟩ := perform_cons hp
    have hprog : prog (T := T) (S := Empty) server (.user worker u) = .act (userAct worker f) := by
      rw [prog, hop]
    have hact : userAct worker f i s.data =
        some (.next { s.data with user := x₁ } (.user worker u₁) (vs₁.map .user)) := by
      rw [userAct, hf]
      rfl
    have hs₁ := System.Reachable.step hs ⟨t, .inl (.act ht hprog hact)⟩
    have ht₁ : (((s.record t { s.data with user := x₁ } (vs₁.map .user)).put t
        (.run (.user worker u₁))).th t) = .run (.user worker u₁) := Function.update_self ..
    obtain ⟨s', hs', ht', hx', hev⟩ := reachable_perform inputs hs₁ ht₁ hrest
    refine ⟨s', hs', ht', hx', ?_⟩
    rw [hev, St.put_events, St.record_events, userEvents_append, userEvents_user,
      List.append_assoc]

/-- **A worker of the pool serves a whole conversation,** from every state of
the server in which it is about to call `service`: whatever the stream is and
however it is cut, there is a run in which the worker alone goes on until it
has returned, with the descriptor closed, and by then the bytes it has written
are those it has read just if no zero byte is among them. -/
theorem worker_echoes {T : Type*} [DecidableEq T] {num : ℕ} {t : T} {worker : Bool} {s : State T}
    {task : Task} {c : ℕ} (hs : (sys num).Reachable s)
    (ht : s.th t = .run (.user worker (.service task))) (hc : s.data.user.conn task.sock = some c)
    (buffer : Buffer) (chunks : List Chunk) (last : Ending) :
    ∃ s' vs, (sys num).Reachable s' ∧ s'.th t = .run (.user worker .served) ∧
      s'.data.user.conn task.sock = none ∧ userEvents s'.events = userEvents s.events ++ vs ∧
      received c vs = (chunks.map Chunk.bytes).flatten ∧
      (written c vs = received c vs ↔ 0 ∉ received c vs) := by
  obtain ⟨s', hs', ht', hx', hev⟩ :=
    reachable_perform _ hs ht (perform_conversation hc buffer chunks last)
  refine ⟨s', _, hs', ht', ?_, hev, received_chunks chunks,
    written_eq_iff (complete_chunks chunks)⟩
  rw [hx']
  exact Function.update_self ..

end TcpServer
end OSNetWorkCode
