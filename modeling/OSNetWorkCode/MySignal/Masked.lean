/-
# What the lines of zeros and ones tell

`0105/mysignal.cc` blocks whatever can be blocked before it looks for the first
time.  From then on nothing but `SIGKILL` ends it and a digit that is `1` stays
`1`, unless a signal is sent that takes that one out (`lines_tell`).  Each line
is the set that `sigpending` gave last: in it is what was sent since it was
blocked, and nothing that was not sent.
-/

import OSNetWorkCode.MySignal.Model

namespace OSNetWorkCode
namespace MySignal

open Unix

/-- What `sigpending` gave last. -/
def LastLook (events : List Event) (S : Finset ℕ) : Prop :=
  ∃ before after, events = before ++ .looked S :: after ∧ ∀ e ∈ after, ∃ sig, e = .sent sig

/-- A signal that is sent does not change what `sigpending` gave last. -/
theorem LastLook.sent {events : List Event} {S : Finset ℕ} (h : LastLook events S) (sig : ℕ) :
    LastLook (events ++ [.sent sig]) S := by
  obtain ⟨before, after, rfl, hafter⟩ := h
  refine ⟨before, after ++ [.sent sig], by simp, fun e he => ?_⟩
  rcases List.mem_append.1 he with hold | hnew
  · exact hafter e hold
  · exact ⟨sig, List.mem_singleton.1 hnew⟩

/-- **The digits of a line** give the signals up to 31 that are pending: digit
`sig - 1` is a `1` for each of them and a `0` for the others. -/
theorem getElem?_showPending {S : Finset ℕ} {sig : ℕ} (hsig : 1 ≤ sig ∧ sig ≤ 31) :
    (showPending S)[sig - 1]? = some 49 ↔ sig ∈ S := by
  have hlt : sig - 1 < 31 := by omega
  rw [showPending, List.getElem?_append_left (by simpa using hlt), List.getElem?_map,
    List.getElem?_range' hlt, Option.map_some, show 1 + 1 * (sig - 1) = sig by omega]
  split_ifs with h <;> simp [h]

/-- A line is the set looked at last, and whatever can be blocked was blocked
before a look. -/
def Told (events : List Event) : Event → Prop
  | .printed bytes => ∃ S, LastLook events S ∧ bytes = showPending S
  | .looked _ => ∀ sig ∈ blockable, Blocked events sig
  | _ => True

/-- What holds at a place of `main`: behind the loop of `blockSig` all that can
be blocked is, and where a line is to be printed the set for it is the one
looked at last. -/
def Masking.Stands (s : Signaled Masking) : Masking → Prop
  | .block sig => (∀ n ∈ blockable, n < sig → n ∈ s.blocked) ∧ ∀ S, .looked S ∉ s.events
  | .show S => (∀ n ∈ blockable, n ∈ s.blocked) ∧ LastLook s.events S
  | _ => ∀ n ∈ blockable, n ∈ s.blocked

/-- **The invariant of `main`.** -/
structure Masked (s : Signaled Masking) : Prop where
  stands : Masking.Stands s s.place
  told : Follows Told s.events
  ended : ∀ sig, s.life = .ended sig → .sent sig ∈ s.events ∧ ∀ S, .looked S ∈ s.events → sig = 9

namespace Masked

variable {s s' : Signaled Masking}

/-- Where something was looked at, whatever can be blocked is: the loop over
`blockSig` comes before the first look, and nothing is unblocked behind it. -/
theorem all_blocked (h : Masked s) {S : Finset ℕ} (hS : .looked S ∈ s.events) :
    ∀ n ∈ blockable, n ∈ s.blocked := by
  have hstands := h.stands
  cases hplace : s.place with
  | block sig =>
    rw [hplace] at hstands
    exact absurd hS (hstands.2 S)
  | sigpending =>
    rw [hplace] at hstands
    exact hstands
  | «show» S' =>
    rw [hplace] at hstands
    exact hstands.1
  | sleep =>
    rw [hplace] at hstands
    exact hstands

/-- A signal that is sent changes neither what is blocked nor what was looked
at last.  It ends nobody by itself: that is for its delivery to do. -/
theorem send (h : Masked s) (sig : ℕ) : Masked (s.send sig) := by
  have hlooked : ∀ {S}, .looked S ∈ s.events ++ [.sent sig] → .looked S ∈ s.events := fun hS =>
    (List.mem_append.1 hS).resolve_right fun hnew => by cases List.mem_singleton.1 hnew
  refine ⟨?_, h.told.append trivial, fun n hn => ?_⟩
  · show Masking.Stands (s.send sig) s.place
    have hstands := h.stands
    cases hplace : s.place with
    | block n =>
      rw [hplace] at hstands
      exact ⟨hstands.1, fun S hS => hstands.2 S (hlooked hS)⟩
    | «show» S =>
      rw [hplace] at hstands
      exact ⟨hstands.1, hstands.2.sent sig⟩
    | sigpending =>
      rw [hplace] at hstands
      exact hstands
    | sleep =>
      rw [hplace] at hstands
      exact hstands
  · have hlife : s.life = .ended n := by
      change (if sig = 18 ∧ s.life = .stopped then Life.running else s.life) = .ended n at hn
      split_ifs at hn
      exact hn
    obtain ⟨hsent, hlook⟩ := h.ended n hlife
    exact ⟨List.mem_append_left _ hsent, fun S hS => hlook S (hlooked hS)⟩

/-- **A step of `main`** keeps the invariant.  A look is noted with what was
blocked before it, and a line with the look before it. -/
theorem run (h : Masked s) (hkept : Kept s) (hlife : s.life = .running)
    (hs : s.run (masking s.place) = some s') : Masked s' := by
  have hstands := h.stands
  have hended : ∀ {t : Signaled Masking} {n}, t.life = s.life → t.life ≠ .ended n := by
    intro t n heq hn
    rw [heq, hlife] at hn
    cases hn
  cases hplace : s.place with
  | block sig =>
    rw [hplace] at hs hstands
    by_cases hsig : sig ≤ 32
    · rw [masking, if_pos hsig] at hs
      obtain rfl := Option.some.inj hs
      refine ⟨⟨fun n hn hlt => ?_, fun S hS => ?_⟩, h.told.append trivial,
        fun n hn => absurd hn (hended rfl)⟩
      · refine Finset.mem_union.2 ?_
        rcases Nat.lt_succ_iff_lt_or_eq.1 hlt with hlt | rfl
        · exact .inl (hstands.1 n hn hlt)
        · exact .inr (Finset.mem_inter.2 ⟨Finset.mem_singleton_self n, hn⟩)
      · rcases List.mem_append.1 hS with hold | hnew
        · exact hstands.2 S hold
        · cases List.mem_singleton.1 hnew
    · rw [masking, if_neg hsig] at hs
      obtain rfl := Option.some.inj hs
      refine ⟨fun n hn => hstands.1 n hn ?_, h.told, fun n hn => absurd hn (hended rfl)⟩
      have := (Finset.mem_Icc.1 (Finset.mem_sdiff.1 hn).1).2
      omega
  | sigpending =>
    rw [hplace] at hs hstands
    obtain rfl := Option.some.inj hs
    refine ⟨⟨hstands, s.events, [], rfl, nofun⟩, h.told.append fun n hn => ?_,
      fun n hn => absurd hn (hended rfl)⟩
    exact (hkept.blocked n).1 (hstands n hn)
  | «show» S =>
    rw [hplace] at hs hstands
    obtain rfl := Option.some.inj hs
    exact ⟨hstands.1, h.told.append ⟨S, hstands.2, rfl⟩, fun n hn => absurd hn (hended rfl)⟩
  | sleep =>
    rw [hplace] at hs hstands
    obtain rfl := Option.some.inj hs
    exact ⟨hstands, h.told, fun n hn => absurd hn (hended rfl)⟩

/-- **What is done with a signal by default:** behind a look, only `SIGKILL`
ends the process, as all the others are blocked then and not delivered. -/
theorem default (h : Masked s) (hkept : Kept s) {sig : ℕ} {life : Life} (hready : s.Ready sig)
    (hlife : life = .ended sig ∧ byDefault sig = .terminate ∨
      life = .stopped ∧ byDefault sig = .stop ∨
      life = s.life ∧ (byDefault sig = .ignore ∨ byDefault sig = .resume)) :
    Masked { s with pending := s.pending.erase sig, life := life } := by
  refine ⟨?_, h.told, fun n hn => ?_⟩
  · have hstands := h.stands
    show Masking.Stands _ s.place
    cases hplace : s.place <;> rw [hplace] at hstands <;> exact hstands
  · change life = .ended n at hn
    rcases hlife with ⟨rfl, hdefault⟩ | ⟨rfl, -⟩ | ⟨rfl, -⟩
    · cases hn
      have hsent := (hkept.sent sig hready.1).mem
      refine ⟨hsent, fun S hS => ?_⟩
      by_contra hne
      have hrange := hkept.range sig hsent
      refine hready.2.1 (h.all_blocked hS sig (Finset.mem_sdiff.2 ⟨Finset.mem_Icc.2 hrange, ?_⟩))
      rw [Finset.mem_insert, Finset.mem_singleton, not_or]
      refine ⟨hne, ?_⟩
      rintro rfl
      cases hdefault
    · cases hn
    · exact h.ended n hn

end Masked

/-- `main` installs no handler and unblocks nothing, which is what the facts
about held signals ask of a program. -/
theorem plain_masking : Plain masking := by
  intro l
  cases l with
  | block sig =>
    simp only [masking]
    split_ifs <;> exact ⟨nofun, nofun⟩
  | sigpending => exact ⟨nofun, nofun⟩
  | «show» S => exact ⟨nofun, nofun⟩
  | sleep => exact ⟨nofun, nofun⟩

/-- **The invariant holds in every run,** by induction on the steps.  No step
delivers a signal to a handler, as `main` installs none. -/
theorem masked {s : Signaled Masking} (h : maskings.Reachable s) : Masked s := by
  refine h.invariant (fun s hs => ?_) (fun s s' hreach hmasked hs => ?_)
  · rw [hs]
    refine ⟨⟨fun n hn hlt => ?_, nofun⟩, .nil, nofun⟩
    have := (Finset.mem_Icc.1 (Finset.mem_sdiff.1 hn).1).1
    omega
  · obtain ⟨a, -, ha⟩ := hs
    have hkept := kept plain_masking hreach
    cases Signaled.steps ha with
    | run hlife hs => exact hmasked.run hkept hlife hs
    | send hsig => exact hmasked.send _
    | handle hready hhandler =>
      rw [hkept.handler] at hhandler
      cases hhandler
    | default hready hhandler hlife => exact hmasked.default hkept hready hlife

/-- **The lines tell what is kept from the process.**  Each is made of the set
that `sigpending` gave last, a `1` for each signal in it.  By then all that can
be blocked was.  In the set are all signals sent since they were blocked, only
signals that were sent, and those of any set before, as far as no signal sent
since took them out.  Once it has looked, only `SIGKILL` ends the process. -/
theorem lines_tell {s : Signaled Masking} (h : maskings.Reachable s) :
    (∀ pre bytes post, s.events = pre ++ .printed bytes :: post →
      ∃ S, LastLook pre S ∧ bytes = showPending S ∧
        ∀ sig, 1 ≤ sig ∧ sig ≤ 31 → (bytes[sig - 1]? = some 49 ↔ sig ∈ S)) ∧
    (∀ pre S post, s.events = pre ++ .looked S :: post →
      (∀ sig ∈ blockable, Blocked pre sig) ∧ (∀ sig, Held pre sig → sig ∈ S) ∧
        ∀ sig ∈ S, sig ∈ blockable ∧ Sent pre sig) ∧
    (∀ pre S mid S' post, s.events = pre ++ .looked S :: (mid ++ .looked S' :: post) →
      ∀ sig ∈ S, (∀ other, .sent other ∈ mid → sig ∉ cancels other) → sig ∈ S') ∧
    ∀ sig, s.life = .ended sig → .sent sig ∈ s.events ∧ ∀ S, .looked S ∈ s.events → sig = 9 := by
  have hmasked := masked h
  have hkept := kept plain_masking h
  refine ⟨fun pre bytes post heq => ?_, fun pre S post heq => ?_, hkept.grows, hmasked.ended⟩
  · obtain ⟨S, hlast, rfl⟩ := hmasked.told pre _ post heq
    exact ⟨S, hlast, rfl, fun sig hsig => getElem?_showPending hsig⟩
  · obtain ⟨hheld, hin⟩ := hkept.looked pre S post heq
    refine ⟨hmasked.told pre _ post heq, hheld, fun sig hsig => ?_⟩
    obtain ⟨hblocked, hsent, -⟩ := hin sig hsig
    obtain ⟨sigs, -, hmem⟩ := (hkept.blocked sig).1 hblocked
    exact ⟨(Finset.mem_inter.1 hmem).2, hsent⟩

/-- The first calls of `main`, where nothing is sent meanwhile: after `k` of
them the signals up to `k` are blocked, but for those that cannot be. -/
theorem blocking : ∀ k ≤ 32, maskings.Reachable
    ⟨.running, .block (k + 1), [], ∅, Finset.Icc 1 k ∩ blockable, fun _ => none,
      (List.range' 1 k).map fun sig => .blocked {sig}⟩
  | 0, _ => .init rfl
  | k + 1, hk => by
    have h := (blocking k (by omega)).next (a := .run)
      (by rw [Signaled.step, if_pos rfl, masking, if_pos hk]; rfl)
    have hblocked : Finset.Icc 1 (k + 1) ∩ blockable =
        Finset.Icc 1 k ∩ blockable ∪ {k + 1} ∩ blockable := by
      rw [← Finset.union_inter_distrib_right]
      congr 1
      ext n
      simp only [Finset.mem_union, Finset.mem_Icc, Finset.mem_singleton]
      omega
    rw [hblocked, List.range'_1_concat, List.map_append, Nat.add_comm 1 k]
    exact h

/-- `SIGINT` behind the last `blockSig` is shown: it is pending and stays so,
and its digit is a `1`. -/
theorem lines_tell_interrupt : ∃ (s : Signaled Masking) (pre : List Event) (bytes : List UInt8),
    maskings.Reachable s ∧ s.events = pre ++ [.printed bytes] ∧ bytes[1]? = some 49 ∧
    ∃ S, LastLook pre S ∧ 2 ∈ S := by
  have h₁ := (blocking 32 le_rfl).next (a := .run) rfl
  have h₂ := h₁.next (a := .send 2) rfl
  have h₃ := h₂.next (a := .run) rfl
  have h₄ := h₃.next (a := .run) rfl
  obtain ⟨S, hlast, -, hdigit⟩ := (lines_tell h₄).1 _ _ [] rfl
  exact ⟨_, _, _, h₄, rfl, by decide, S, hlast, (hdigit 2 (by decide)).1 (by decide)⟩

end MySignal
end OSNetWorkCode
