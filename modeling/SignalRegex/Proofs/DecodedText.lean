import Mathlib.Algebra.Group.Nat.Defs
import Mathlib.Tactic.SplitIfs
import SignalRegex.Proofs.MachineRuns

/-!
Code points from bytes.

A machine that is fed bytes takes the code points that its decoder completes (`tracks_feedBytes`).
While no error is remembered, the bits read so far leave room for what is still missing below the
limit of the comparators, so a text without an error has no code point past that limit
(`lt_testableLimit_of_malformed_eq_false`).
-/

set_option autoImplicit false

namespace SignalRegex

namespace Decoder

variable {d : Decoder} {byte : UInt8} {bytes : List UInt8} {cp : Nat}

/-- However the missing bytes turn out, the code point stays below the limit, unless there was an
error. -/
def Bounded (d : Decoder) : Prop :=
  d.error = false → (d.codePoint + 1) * 64 ^ d.pending ≤ testableLimit

/-- Six bits more take no more room than was left for them. -/
theorem room_of_lt {codePoint bits missing limit : Nat} (hbits : bits < 64)
    (h : (codePoint + 1) * 64 ^ (missing + 1) ≤ limit) :
    (codePoint * 64 + bits + 1) * 64 ^ missing ≤ limit := by
  rw [Nat.pow_succ'] at h
  calc (codePoint * 64 + bits + 1) * 64 ^ missing ≤ (codePoint + 1) * 64 * 64 ^ missing :=
        Nat.mul_le_mul_right _ (by omega)
    _ ≤ limit := by rwa [Nat.mul_assoc]

theorem bounded_start : start.Bounded :=
  fun _ ↦ by decide

theorem interrupt_of_error_eq_false (h : d.interrupt.error = false) :
    d.interrupt = d ∧ d.error = false := by
  unfold interrupt at h ⊢
  split_ifs at h ⊢ with hpending
  exact ⟨rfl, h⟩

/-- What a byte can do without an error: it is a code point of its own, it goes on with a sequence
or ends it, or it starts one that stays below the limit. -/
inductive Advances (d : Decoder) : Decoder × Option Nat → Prop where
  | alone {b : Nat} : b < 0x80 → Advances d (d, some b)
  | more {bits : Nat} : bits < 64 → 1 < d.pending →
      Advances d (⟨d.codePoint * 64 + bits, d.pending - 1, false⟩, none)
  | last {bits : Nat} : bits < 64 → d.pending = 1 →
      Advances d (⟨d.codePoint * 64 + bits, 0, false⟩, some (d.codePoint * 64 + bits))
  | lead {bits continuations : Nat} : (bits + 1) * 64 ^ continuations ≤ testableLimit →
      Advances d (⟨bits, continuations, false⟩, none)

theorem advances_continuation {bits : Nat} (hbits : bits < 64)
    (h : (d.continuation bits).1.error = false) :
    d.error = false ∧ d.Advances (d.continuation bits) := by
  unfold continuation at h ⊢
  split_ifs at h ⊢ with hzero hone
  · refine ⟨h, ?_⟩
    rw [h, hone]
    exact .last hbits hone
  · refine ⟨h, ?_⟩
    rw [h]
    exact .more hbits (by omega)

theorem advances_lead {bits continuations : Nat} {suspect : Bool}
    (hroom : suspect = false → (bits + 1) * 64 ^ continuations ≤ testableLimit)
    (h : (d.lead bits continuations suspect).error = false) :
    d.error = false ∧ d.Advances (d.lead bits continuations suspect, none) := by
  obtain ⟨herror, hsuspect⟩ := Bool.or_eq_false_iff.mp h
  refine ⟨(interrupt_of_error_eq_false herror).2, ?_⟩
  rw [lead, herror, hsuspect]
  exact .lead (hroom hsuspect)

/-- An error stays, so a byte that leaves none behind met none. -/
theorem advances_push (h : (d.push byte).1.error = false) :
    d.error = false ∧ d.Advances (d.push byte) := by
  have hroom : ∀ {bits : Nat}, bits < 5 → (bits + 1) * 64 ^ 3 ≤ testableLimit := by
    intro bits hbits
    rw [testableLimit]
    omega
  unfold push at h ⊢
  dsimp only at h ⊢
  split_ifs at h ⊢ with h80 hC0 hE0 hF0 hF8
  · obtain ⟨heq, herror⟩ := interrupt_of_error_eq_false h
    rw [heq]
    exact ⟨herror, .alone h80⟩
  · exact advances_continuation (by omega) h
  · exact advances_lead (fun _ ↦ by rw [testableLimit]; omega) h
  · exact advances_lead (fun _ ↦ by rw [testableLimit]; omega) h
  · refine advances_lead (fun hsuspect ↦ hroom ?_) h
    have hlow := of_decide_eq_false hsuspect
    omega

theorem Advances.bounded {r : Decoder × Option Nat} (h : d.Advances r) (hd : d.Bounded)
    (hok : d.error = false) : r.1.Bounded := by
  have hroom := hd hok
  cases h with
  | alone _ => exact hd
  | @more bits hbits hpending =>
    intro _
    obtain ⟨n, hn⟩ := Nat.exists_eq_succ_of_ne_zero (Nat.ne_of_gt (Nat.zero_lt_of_lt hpending))
    rw [hn] at hroom
    rw [hn, Nat.succ_sub_one]
    exact room_of_lt hbits hroom
  | last hbits hpending =>
    intro _
    rw [hpending] at hroom
    dsimp only
    omega
  | lead hlead => exact fun _ ↦ hlead

theorem Advances.lt_testableLimit {r : Decoder × Option Nat} (h : d.Advances r) (hd : d.Bounded)
    (hok : d.error = false) : ∀ cp ∈ r.2, cp < testableLimit := by
  have hroom := hd hok
  intro cp hcp
  cases h with
  | alone hb => exact Option.some.inj hcp ▸ Nat.lt_trans hb (by decide)
  | more _ _ => exact absurd hcp nofun
  | last hbits hpending =>
    obtain rfl := Option.some.inj hcp
    rw [hpending] at hroom
    omega
  | lead _ => exact absurd hcp nofun

theorem error_pushAll (h : (d.pushAll bytes).1.error = false) : d.error = false := by
  induction bytes generalizing d with
  | nil => exact h
  | cons byte bytes ih => exact (advances_push (ih h)).1

theorem lt_testableLimit_of_pushAll (hd : d.Bounded) (h : (d.pushAll bytes).1.error = false) :
    ∀ cp ∈ (d.pushAll bytes).2, cp < testableLimit := by
  induction bytes generalizing d with
  | nil => exact fun cp hcp ↦ absurd hcp List.not_mem_nil
  | cons byte bytes ih =>
    obtain ⟨hok, hadvances⟩ := advances_push (error_pushAll h)
    intro cp hcp
    rcases List.mem_append.mp hcp with hhead | hrest
    · exact hadvances.lt_testableLimit hd hok cp (Option.mem_toList.mp hhead)
    · exact ih (hadvances.bounded hd hok) h cp hrest

/-- A text whose bytes are not malformed has no code point that the comparators cannot see. -/
theorem lt_testableLimit_of_malformed_eq_false
    (h : (start.pushAll bytes).1.malformed = false) :
    ∀ cp ∈ (start.pushAll bytes).2, cp < testableLimit :=
  lt_testableLimit_of_pushAll bounded_start (Bool.or_eq_false_iff.mp h).1

end Decoder

namespace Machine

variable {p : Program} {m : Machine} {v : List Nat}

theorem decoder_feed (m : Machine) (byte : UInt8) :
    (m.feed byte).decoder = (m.decoder.push byte).1 := by
  unfold feed
  dsimp only
  split
  · rfl
  · rfl

/-- A byte leads the live states on where it completes a code point. -/
theorem tracks_feed (hp : p.Consistent) (h : Tracks p m v) (byte : UInt8) :
    Tracks p (m.feed byte) (v ++ (m.decoder.push byte).2.toList) := by
  unfold feed
  dsimp only
  cases hout : (m.decoder.push byte).2 with
  | none =>
    rw [Option.toList_none, List.append_nil]
    exact ⟨h.program, h.taps, h.live⟩
  | some cp =>
    have hmoved : Tracks p { m with decoder := (m.decoder.push byte).1 } v :=
      ⟨h.program, h.taps, h.live⟩
    exact tracks_step hp hmoved cp

theorem tracks_feedBytes (hp : p.Consistent) (h : Tracks p m v) (bytes : List UInt8) :
    Tracks p (m.feedBytes bytes) (v ++ (m.decoder.pushAll bytes).2) ∧
      (m.feedBytes bytes).decoder = (m.decoder.pushAll bytes).1 := by
  induction bytes generalizing m v with
  | nil => exact ⟨by rwa [Decoder.pushAll, List.append_nil], rfl⟩
  | cons byte bytes ih =>
    have hrest := ih (tracks_feed hp h byte)
    rw [decoder_feed, List.append_assoc] at hrest
    exact hrest

/-! ### Whole texts -/

theorem tracks_run (hbuild : build p = .ok m) (bytes : List UInt8) :
    Tracks p (m.reset.feedBytes bytes) (Decoder.start.pushAll bytes).2 ∧
      (m.reset.feedBytes bytes).decoder = (Decoder.start.pushAll bytes).1 := by
  obtain ⟨hp, rfl⟩ := build_eq_ok_iff.mp hbuild
  have hstart : Tracks p (reset ⟨p, p.taps, p.initialVector.toArray, .start, 0⟩) [] :=
    tracks_initialVector rfl rfl rfl
  exact tracks_feedBytes hp hstart bytes

theorem length_accepted_run (hbuild : build p = .ok m) (bytes : List UInt8) :
    (m.run bytes).2.accepted.length = p.patterns.length :=
  length_accepted_result (tracks_run hbuild bytes).1

theorem malformed_run (hbuild : build p = .ok m) (bytes : List UInt8) :
    (m.run bytes).2.malformed = (Decoder.start.pushAll bytes).1.malformed :=
  congrArg Decoder.malformed (tracks_run hbuild bytes).2

/-- The answer for a pattern is whether a run of the text's code points accepts it. -/
theorem accepted_run (hbuild : build p = .ok m) (bytes : List UInt8) {i : Nat}
    {pattern : Program.Pattern} (hi : p.patterns[i]? = some pattern) :
    ∃ b, (m.run bytes).2.accepted[i]? = some b ∧
      (b = true ↔ p.MatchesAt pattern (Decoder.start.pushAll bytes).2) :=
  accepted_result (tracks_run hbuild bytes).1 hi

end Machine

end SignalRegex
