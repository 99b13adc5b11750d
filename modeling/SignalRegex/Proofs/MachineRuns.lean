import Mathlib.Tactic.ByContra
import SignalRegex.Machine.Basic
import SignalRegex.Program.Run
import SignalRegex.Proofs.ProgramChecks

/-!
The machine of a program follows the runs of the program.

A machine reads its signals through the places of their subranges in the shared list. For a program
that was built these places hold the very subranges of the signal, so an edge is open at a code
point exactly when its condition holds there (`eval_signalValues`). One code point then takes the
states that runs of a text reach to the states that runs of the longer text reach (`tracks_step`),
and so any code points lead along the runs of every longer text (`tracks_foldl_step`).
-/

set_option autoImplicit false

namespace SignalRegex

/-! ### Runs, by their last step -/

namespace Program

theorem run_nil {p : Program} {q : Nat} :
    p.Run [] q ↔ ∃ s, p.states[q]? = some s ∧ s.initial = true := by
  constructor
  · intro h
    generalize hw : ([] : List Nat) = w at h
    cases h with
    | initial hs hinitial => exact ⟨_, hs, hinitial⟩
    | step => simp at hw
  · rintro ⟨s, hs, hinitial⟩
    exact .initial hs hinitial

theorem run_append_singleton {p : Program} {w : List Nat} {cp q : Nat} :
    p.Run (w ++ [cp]) q ↔ ∃ s, p.states[q]? = some s ∧ ∃ e ∈ s.incoming,
      e.condition.HoldsAt p.signals cp ∧ p.Run w e.source := by
  constructor
  · intro h
    generalize hw : w ++ [cp] = v at h
    cases h with
    | initial => simp at hw
    | step hs he hholds hrun =>
      obtain ⟨rfl, hcp⟩ := List.append_inj' hw rfl
      obtain rfl := List.singleton_inj.mp hcp
      exact ⟨_, hs, _, he, hholds, hrun⟩
  · rintro ⟨s, hs, e, he, hholds, hrun⟩
    exact .step hs he hholds hrun

end Program

/-! ### Signals and conditions -/

/-- A condition that is given the values of the signals at a code point holds there. -/
theorem Condition.eval_eq_true_iff {signals : List RangeSignal} {cp : Nat} {values : Array Bool}
    {c : Condition} (hvalues : ∀ id, values.getD id false = true ↔
      ∃ s ∈ signals[id]?, s.contains cp = true) :
    c.eval values = true ↔ c.HoldsAt signals cp := by
  cases c with
  | never => simp [eval, HoldsAt]
  | always => simp [eval, HoldsAt]
  | signal id negated =>
    rw [eval, HoldsAt, ← hvalues id]
    cases values.getD id false <;> cases negated <;> simp

namespace Machine

/-- The taps of a signal of a consistent program read the subranges of the signal. -/
theorem any_taps {p : Program} (hp : p.Consistent) {s : RangeSignal} (hs : s ∈ p.signals)
    (cp : Nat) :
    ((s.subranges.filterMap (tap? p.subranges.toArray)).any fun t ↦
      (p.subranges.toArray.map (·.contains cp)).getD t false) = s.contains cp := by
  have hread (r : SubRange) (t : Nat) (ht : tap? p.subranges.toArray r = some t) :
      (p.subranges.toArray.map (·.contains cp)).getD t false = r.contains cp := by
    rw [Array.getD_eq_getD_getElem?, Array.getElem?_map, getElem?_of_tap? ht]
    rfl
  rw [RangeSignal.contains, Bool.eq_iff_iff, List.any_eq_true, List.any_eq_true]
  constructor
  · rintro ⟨t, ht, hbit⟩
    obtain ⟨r, hr, htap⟩ := List.mem_filterMap.mp ht
    exact ⟨r, hr, hread r t htap ▸ hbit⟩
  · rintro ⟨r, hr, hbit⟩
    obtain ⟨t, htap⟩ := Option.isSome_iff_exists.mp (hp.subrange s hs r hr)
    exact ⟨t, List.mem_filterMap.mpr ⟨r, hr, htap⟩, (hread r t htap).trans hbit⟩

theorem getD_signalValues {p : Program} (hp : p.Consistent) {m : Machine} (hprogram : m.program = p)
    (htaps : m.taps = p.taps) (id cp : Nat) :
    (m.signalValues cp).getD id false = true ↔ ∃ s ∈ p.signals[id]?, s.contains cp = true := by
  rw [signalValues, htaps, hprogram, Program.taps, Array.getD_eq_getD_getElem?]
  simp only [List.getElem?_toArray, List.getElem?_map]
  cases hs : p.signals[id]? with
  | none => simp
  | some s =>
    simp only [Option.map_some, Option.getD_some, any_taps hp (List.mem_of_getElem? hs),
      Option.mem_some_iff, exists_eq_left']

theorem eval_signalValues {p : Program} (hp : p.Consistent) {m : Machine}
    (hprogram : m.program = p) (htaps : m.taps = p.taps) (c : Condition) (cp : Nat) :
    c.eval (m.signalValues cp) = true ↔ c.HoldsAt p.signals cp :=
  Condition.eval_eq_true_iff fun id ↦ getD_signalValues hp hprogram htaps id cp

/-! ### What is live -/

/-- The live states are the ends of the runs of a text. -/
structure Tracks (p : Program) (m : Machine) (w : List Nat) : Prop where
  program : m.program = p
  taps : m.taps = p.taps
  live : ∀ q, m.live.getD q false = true ↔ p.Run w q

theorem mem_liveStates {m : Machine} {q : Nat} :
    q ∈ m.liveStates ↔ m.live.getD q false = true := by
  rw [liveStates, List.mem_filter, List.mem_range, and_iff_right_iff_imp]
  intro h
  by_contra hout
  rw [Array.getD_eq_getD_getElem?, Array.getElem?_eq_none (Nat.le_of_not_lt hout)] at h
  exact absurd h (by simp)

theorem tracks_initialVector {p : Program} {m : Machine} (hprogram : m.program = p)
    (htaps : m.taps = p.taps) (hlive : m.live = p.initialVector.toArray) : Tracks p m [] := by
  refine ⟨hprogram, htaps, fun q ↦ ?_⟩
  rw [hlive, Program.run_nil, Program.initialVector, Array.getD_eq_getD_getElem?,
    List.getElem?_toArray, List.getElem?_map]
  cases p.states[q]? <;> simp

/-- One code point leads the live states one step on along every run. -/
theorem tracks_step {p : Program} (hp : p.Consistent) {m : Machine} {w : List Nat}
    (h : Tracks p m w) (cp : Nat) : Tracks p (m.step cp) (w ++ [cp]) := by
  refine ⟨h.program, h.taps, fun q ↦ ?_⟩
  rw [Program.run_append_singleton]
  simp only [step, h.program, Array.getD_eq_getD_getElem?, List.getElem?_toArray, List.getElem?_map]
  cases hs : p.states[q]? with
  | none => simp
  | some s =>
    simp only [Option.map_some, Option.getD_some, List.any_eq_true, Bool.and_eq_true,
      Option.some.injEq, exists_eq_left', ← Array.getD_eq_getD_getElem?,
      eval_signalValues hp h.program h.taps, h.live]
    grind

theorem tracks_foldl_step {p : Program} (hp : p.Consistent) {m : Machine} {v : List Nat}
    (h : Tracks p m v) (w : List Nat) : Tracks p (w.foldl step m) (v ++ w) := by
  induction w generalizing m v with
  | nil => rwa [List.append_nil]
  | cons cp w ih =>
    have hstep := ih (tracks_step hp h cp)
    rwa [List.append_assoc] at hstep

/-- A machine that was just built is at the start of every run. -/
theorem tracks_build {p : Program} {m : Machine} (hbuild : build p = .ok m) : Tracks p m [] := by
  obtain ⟨-, rfl⟩ := build_eq_ok_iff.mp hbuild
  exact tracks_initialVector rfl rfl rfl

theorem length_accepted_result {p : Program} {m : Machine} {w : List Nat} (h : Tracks p m w) :
    m.result.accepted.length = p.patterns.length := by
  rw [result, List.length_map, h.program]

/-- The answer at the end of a text, pattern by pattern. -/
theorem accepted_result {p : Program} {m : Machine} {w : List Nat} (h : Tracks p m w) {i : Nat}
    {pattern : Program.Pattern} (hi : p.patterns[i]? = some pattern) :
    ∃ b, m.result.accepted[i]? = some b ∧ (b = true ↔ p.MatchesAt pattern w) := by
  refine ⟨pattern.accepting.any fun s ↦ m.live.getD s false, ?_, ?_⟩
  · rw [result, h.program, List.getElem?_map, hi]
    rfl
  · simp only [List.any_eq_true, h.live, Program.MatchesAt]

end Machine

end SignalRegex
