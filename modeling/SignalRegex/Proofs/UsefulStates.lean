import Mathlib.Data.Set.Function
import Mathlib.Logic.Relation
import SignalRegex.Proofs.LiveStates
import SignalRegex.Proofs.ProgramLayout

/-!
No state of a program is useless.

The states of a reversed automaton are the live states of the automaton under new numbers
(`bijOn_reverse`), and they are live again (`live_reverse`). A pattern's block in the program is
such an automaton with every edge listed at its end, so the program walks its paths backwards
(`Holds.leads_of_path`): the way on to a final state becomes a way from a state that is initial in
the program, and the way from an initial state one to a state that accepts (`Holds.useful`). Adding
patterns takes no way away (`useful_install`).
-/

set_option autoImplicit false

namespace SignalRegex

namespace Automaton

variable {N : Automaton} {i k : Nat}

/-! ### The states of a reversed automaton -/

/-- Renumbering leaves no state that cannot be reached. -/
theorem mem_reachable_compact : k ∈ N.compact.reachable ↔ k < N.compact.size := by
  rw [(renaming_compact N).mem_reachable_iff, size_compact]
  constructor
  · rintro ⟨i, hi, rfl⟩
    exact idxOf_reachable_lt hi
  · intro hk
    exact ⟨N.reachable[k], List.getElem_mem hk, (nodup_reachable N).idxOf_getElem k hk⟩

theorem live_reverse (hi : i < N.reverse.size) : N.reverse.Live i :=
  trim_reverse N i (mem_reachable_compact.mpr hi)

/-- The numbers of a reversed automaton are given to the live states, one to each. -/
theorem bijOn_reverse (N : Automaton) :
    Set.BijOn N.flip.reachable.idxOf {i | N.Live i} (Set.Iio N.reverse.size) := by
  have hcopy := copies_reverse N
  refine ⟨?_, ?_, ?_⟩
  · intro i hi
    exact mem_reachable_compact.mp (hcopy.mem_reachable hi)
  · intro i hi j hj heq
    exact hcopy.inj i hi j hj heq
  · intro k hk
    exact (hcopy.reachable k).mp (mem_reachable_compact.mpr hk)

end Automaton

namespace Program

/-! ### Ways through a program -/

/-- An edge leads from the state at one position to the state at another. -/
def Leads (p : Program) (k l : Nat) : Prop :=
  ∃ s, p.states[l]? = some s ∧ ∃ e ∈ s.incoming, e.source = k

/-- The states between two positions are of use for a pattern: each of them can be reached from one
of them that is initial, and a state that accepts for the pattern can be reached from it. -/
def UsefulFor (p : Program) (q : Pattern) (low high : Nat) : Prop :=
  ∀ k, low ≤ k → k < high →
    (∃ (a : Nat) (s : State), low ≤ a ∧ a < high ∧ p.states[a]? = some s ∧ s.initial = true ∧
      Relation.ReflTransGen p.Leads a k) ∧
    ∃ b ∈ q.accepting, Relation.ReflTransGen p.Leads k b

/-- Every state is of use for the pattern to which it belongs. -/
def Useful (p : Program) (bound : Nat → Nat) : Prop :=
  ∀ (i : Nat) (q : Pattern), p.patterns[i]? = some q → p.UsefulFor q (bound i) (bound (i + 1))

variable {p later : Program}

theorem Leads.mono {k l : Nat} (h : p.Leads k l) (hlater : p.states <+: later.states) :
    later.Leads k l := by
  obtain ⟨s, hs, hedge⟩ := h
  exact ⟨s, getElem?_of_prefix hlater hs, hedge⟩

theorem UsefulFor.mono {q : Pattern} {low high : Nat} (h : p.UsefulFor q low high)
    (hlater : p.states <+: later.states) : later.UsefulFor q low high := by
  have hway : ∀ {a b : Nat}, Relation.ReflTransGen p.Leads a b →
      Relation.ReflTransGen later.Leads a b :=
    Relation.ReflTransGen.mono (fun _ _ hedge ↦ hedge.mono hlater) _ _
  intro k hlow hhigh
  obtain ⟨⟨a, s, ha, ha', hs, hinitial, hto⟩, b, hb, hfrom⟩ := h k hlow hhigh
  exact ⟨⟨a, s, ha, ha', getElem?_of_prefix hlater hs, hinitial, hway hto⟩, b, hb, hway hfrom⟩

end Program

namespace Matcher

variable {m : Matcher} {R : Automaton} {offset i j : Nat} {w : List Nat}

/-- A path of the reversed automaton is walked back in the program. -/
theorem Holds.leads_of_path (h : m.Holds offset R) (hfree : R.EpsilonFree) (hpath : R.Path i w j)
    (hi : i < R.size) : Relation.ReflTransGen m.program.Leads (offset + j) (offset + i) := by
  induction hpath with
  | refl => exact .refl
  | epsilon hslide _ _ => exact absurd hslide (hfree _ _)
  | @real i t j cp label w hlabel hcp _ ih =>
    have hread : R.Reads i cp t := ⟨label, hlabel, hcp⟩
    have ht : t < R.size := Automaton.lt_of_mem_targets hread.mem_targets
    obtain ⟨s, hs, hplaces⟩ := h i hi
    obtain ⟨e, he, hsource, _⟩ := hplaces.incoming.to_program (t, label) hlabel
    exact (ih ht).tail ⟨s, hs, e, he, hsource⟩

/-- The states of an automaton all of whose states are live are of use for a pattern that accepts in
its initial states. -/
theorem Holds.useful (h : m.Holds offset R) (hfree : R.EpsilonFree)
    (hlive : ∀ i < R.size, R.Live i) {q : Program.Pattern}
    (haccepting : q.accepting = R.initial.toList.map (offset + ·)) :
    m.program.UsefulFor q offset (offset + R.size) := by
  intro k hlow hhigh
  obtain ⟨i, rfl⟩ := Nat.exists_eq_add_of_le hlow
  have hi : i < R.size := Nat.lt_of_add_lt_add_left hhigh
  obtain ⟨⟨a, ha, u, hu⟩, l, hl, v, hv⟩ := hlive i hi
  constructor
  · have hlt : l < R.size := R.finals_lt l hl
    obtain ⟨s, hs, hplaces⟩ := h l hlt
    exact ⟨offset + l, s, Nat.le_add_right _ _, Nat.add_lt_add_left hlt _, hs,
      hplaces.initial.mpr hl, h.leads_of_path hfree hv hi⟩
  · have hmem : offset + a ∈ q.accepting := haccepting ▸ List.mem_map_of_mem ha
    exact ⟨offset + a, hmem, h.leads_of_path hfree hu (R.initial_lt a ha)⟩

theorem useful_install {bound : Nat → Nat} (h : m.program.Useful bound)
    (hblocks : m.program.Blocks bound) (source : String) (hfree : R.EpsilonFree)
    (hlive : ∀ i < R.size, R.Live i) :
    (m.install source R).program.Useful (extendBounds bound m.patterns.length R.size) := by
  intro i q hq
  rcases patterns_install_cases hq with ⟨hold, hq⟩ | ⟨rfl, rfl⟩
  · rw [extendBounds_of_le (Nat.le_of_lt hold), extendBounds_of_le hold]
    exact (h i q hq).mono (prefix_states_install m source R)
  · have hlast : bound m.patterns.length = m.states.length := hblocks.last
    rw [extendBounds_of_le (Nat.le_refl _), extendBounds_succ, hlast]
    exact (holds_install m source R).useful hfree hlive rfl

/-- Whatever was offered to a matcher, every state in the block of a pattern is on a way from an
initial state of the block to an accepting state of the pattern. This rests on reversal, which keeps
of every automaton the live states, under new numbers, with the edges between them turned
around. -/
theorem useful_offerAll_and_bijOn_reverse (name : String) (config : Config)
    (sources : List String) :
    (∃ bound : Nat → Nat, ((new name config).offerAll sources).1.program.Blocks bound ∧
      config.Sizes ((new name config).offerAll sources).1.program bound ∧
      ((new name config).offerAll sources).1.program.Useful bound) ∧
    ∀ N : Automaton, ∃ f : Nat → Nat,
      Set.BijOn f {i | N.Live i} (Set.Iio N.reverse.size) ∧
        N.reverse.Copies N.live.backwards f := by
  refine ⟨?_, fun N ↦ ⟨_, N.bijOn_reverse, N.copies_reverse⟩⟩
  have hrun := offerAll_induction (m := new name config)
    (motive := fun m _ ↦ m.config = config ∧ ∃ bound, m.program.Blocks bound ∧
      config.Sizes m.program bound ∧ m.program.Useful bound) sources
    ⟨rfl, _, blocks_new name config, fun _ _ h ↦ absurd h nofun, fun _ _ h ↦ absurd h nofun⟩ ?_
  · exact hrun.2
  · rintro m grown taken source id ⟨rfl, bound, hblocks, hsizes, huseful⟩ happend
    obtain ⟨r, hr, _, _, _, rfl, _⟩ := append_eq_ok_iff.mp happend
    exact ⟨rfl, _, blocks_install hblocks _ _, hsizes.install hr,
      useful_install huseful hblocks _ (m.config.epsilonFree_compiled r)
        fun _ ↦ Automaton.live_reverse⟩

end Matcher

end SignalRegex
