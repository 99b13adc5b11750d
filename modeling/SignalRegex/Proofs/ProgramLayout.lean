import SignalRegex.Proofs.CompiledPatterns
import SignalRegex.Proofs.DistinctSignals

/-!
How the program of a matcher is laid out.

The states of a pattern are a block of their own, as large as the automaton of the pattern, and no
edge and no accepting state leaves its block (`Blocks`). Within the tables every list is in order
and nothing is superfluous (`Orderly`). Both are kept whenever a pattern is added (`blocks_install`,
`Arranged.install`), so they hold after any number of attempts, whether these succeed or fail.
-/

set_option autoImplicit false

namespace SignalRegex

namespace Program

/-- The states from `bound i` up to `bound (i + 1)` are those of the pattern with number `i`: every
state belongs to one pattern, and edges and accepting states stay with their pattern. -/
structure Blocks (p : Program) (bound : Nat → Nat) : Prop where
  first : bound 0 = 0
  last : bound p.patterns.length = p.states.length
  step : ∀ i < p.patterns.length, bound i ≤ bound (i + 1)
  source : ∀ (i k : Nat) (s : State), i < p.patterns.length → p.states[k]? = some s →
    bound i ≤ k → k < bound (i + 1) →
    ∀ e ∈ s.incoming, bound i ≤ e.source ∧ e.source < bound (i + 1)
  accepting : ∀ (i : Nat) (q : Pattern), p.patterns[i]? = some q →
    ∀ k ∈ q.accepting, bound i ≤ k ∧ k < bound (i + 1)

/-- The lists of the program are in order, every condition is possible, and every signal is needed:
some edge reads it, and no other signal answers for its set or for the complement of its set. -/
structure Orderly (p : Program) : Prop where
  index : ∀ (k : Nat) (s : State), p.states[k]? = some s → s.index = k
  sources : ∀ s ∈ p.states, (s.incoming.map (·.source)).Pairwise (· < ·)
  accepting : ∀ q ∈ p.patterns, q.accepting.Pairwise (· < ·)
  possible : ∀ s ∈ p.states, ∀ e ∈ s.incoming, e.condition ≠ .never
  known : ∀ s ∈ p.states, ∀ e ∈ s.incoming, ∀ id, e.condition.signal? = some id →
    id < p.signals.length
  used : ∀ id < p.signals.length, ∃ s ∈ p.states, ∃ e ∈ s.incoming,
    e.condition.signal? = some id
  apart : ∀ (i j : Nat) (a b : RangeSignal), i ≠ j → p.signals[i]? = some a →
    p.signals[j]? = some b → (¬ ∀ cp, cp ∈ a.charset ↔ cp ∈ b.charset) ∧
      ¬ ∀ cp < SignalRegex.alphabetSize, cp ∈ a.charset ↔ cp ∉ b.charset
  ascending : p.subranges.Pairwise fun s t ↦ compare s t = .lt
  shared : ∀ r, r ∈ p.subranges ↔ ∃ s ∈ p.signals, r ∈ s.subranges

theorem Blocks.bound_le {p : Program} {bound : Nat → Nat} (h : p.Blocks bound) {i : Nat}
    (hi : i ≤ p.patterns.length) : bound i ≤ p.states.length := by
  rw [← h.last]
  induction hi using Nat.decreasingInduction with
  | self => exact Nat.le_refl _
  | of_succ i hi ih => exact Nat.le_trans (h.step i hi) ih

end Program

namespace Matcher

variable {m : Matcher} {t : SignalTable} {offset : Nat} {R : Automaton}

/-! ### Order -/

theorem map_source_incoming (offset : Nat) (t : SignalTable) (ls : List (Nat × CharSet)) :
    (incoming offset t ls).2.map (·.source) = ls.map fun l ↦ offset + l.1 := by
  induction ls generalizing t with
  | nil => rfl
  | cons l ls ih => exact congrArg ((offset + l.1) :: ·) (ih _)

theorem pairwise_sources_rows {ids : List Nat} :
    ∀ s ∈ (rows offset R t ids).2, (s.incoming.map (·.source)).Pairwise (· < ·) := by
  induction ids generalizing t with
  | nil => exact fun _ hs ↦ absurd hs List.not_mem_nil
  | cons i ids ih =>
    refine List.forall_mem_cons.mpr ⟨?_, ih⟩
    dsimp only
    rw [map_source_incoming, List.pairwise_map]
    exact (R.state i).real.increasing.imp fun hlt ↦ Nat.add_lt_add_left hlt offset

theorem Places.ne_never {i : Nat} {s : Program.State} (h : Places t offset R i s) :
    ∀ e ∈ s.incoming, e.condition ≠ .never := by
  intro e he
  obtain ⟨l, hl, _, hencodes⟩ := h.incoming.from_automaton e he
  exact hencodes.ne_never ((R.state i).real.labels l hl).2

/-- What is kept about the tables of a matcher besides the numbers in them. -/
structure Arranged (m : Matcher) : Prop where
  sources : ∀ s ∈ m.states, (s.incoming.map (·.source)).Pairwise (· < ·)
  accepting : ∀ q ∈ m.patterns, q.accepting.Pairwise (· < ·)
  possible : ∀ s ∈ m.states, ∀ e ∈ s.incoming, e.condition ≠ .never
  used : ∀ id < m.table.size, ∃ s ∈ m.states, ∃ e ∈ s.incoming, e.condition.signal? = some id
  irredundant : m.table.Irredundant

theorem arranged_new (name : String) (config : Config) : (new name config).Arranged where
  sources _ h := absurd h List.not_mem_nil
  accepting _ h := absurd h List.not_mem_nil
  possible _ h := absurd h List.not_mem_nil
  used _ h := absurd h (Nat.not_lt_zero _)
  irredundant := SignalTable.irredundant_empty

theorem Arranged.install (h : m.Arranged) (source : String) (R : Automaton) :
    (m.install source R).Arranged := by
  refine ⟨?_, ?_, ?_, ?_, ?_⟩
  · exact List.forall_mem_append.mpr ⟨h.sources, pairwise_sources_rows⟩
  · refine List.forall_mem_append.mpr ⟨h.accepting, List.forall_mem_singleton.mpr ?_⟩
    rw [List.pairwise_map]
    exact R.initial.increasing.imp fun hlt ↦ Nat.add_lt_add_left hlt _
  · intro s hs
    obtain ⟨k, hk⟩ := List.getElem?_of_mem hs
    rcases states_install_cases hk with hold | ⟨i, _, _, hplaces⟩
    · exact h.possible s (List.mem_of_getElem? hold)
    · exact hplaces.ne_never
  · intro id hid
    rcases rows_uses hid with hold | ⟨s, hs, hread⟩
    · obtain ⟨s, hs, hread⟩ := h.used id hold
      exact ⟨s, List.mem_append_left _ hs, hread⟩
    · exact ⟨s, List.mem_append_right _ hs, hread⟩
  · exact irredundant_rows h.irredundant _ R _

theorem length_signals_program (m : Matcher) : m.program.signals.length = m.table.size :=
  List.length_map _

theorem Arranged.orderly (h : m.Arranged) (hsound : m.Sound) : m.program.Orderly where
  index := hsound.index
  sources := h.sources
  accepting := h.accepting
  possible := h.possible
  known := hsound.signal
  used id hid := h.used id (by rwa [length_signals_program] at hid)
  apart _ _ _ _ hij ha hb := h.irredundant.apart hij ha hb
  ascending := Program.pairwise_sharedSubranges _
  shared _ := Program.mem_sharedSubranges

/-! ### Blocks -/

/-- Every block is as large as the automaton that the configuration makes of its pattern. -/
def Config.Sizes (c : Config) (p : Program) (bound : Nat → Nat) : Prop :=
  ∀ (i : Nat) (q : Program.Pattern), p.patterns[i]? = some q →
    ∃ r, Regex.parseWithin c.depth q.source = .ok r ∧ bound (i + 1) = bound i + (c.compiled r).size

/-- The bounds of the blocks when one of the given size is added behind `n` others. -/
def extendBounds (bound : Nat → Nat) (n size : Nat) (i : Nat) : Nat :=
  if i ≤ n then bound i else bound n + size

theorem blocks_new (name : String) (config : Config) :
    (new name config).program.Blocks fun _ ↦ 0 where
  first := rfl
  last := rfl
  step _ _ := Nat.le_refl _
  source _ _ _ h := absurd h (Nat.not_lt_zero _)
  accepting _ _ h := absurd h nofun

section Install

variable {bound : Nat → Nat} {n size i : Nat}

theorem extendBounds_of_le (h : i ≤ n) : extendBounds bound n size i = bound i :=
  if_pos h

theorem extendBounds_succ : extendBounds bound n size (n + 1) = bound n + size :=
  if_neg (Nat.not_succ_le_self n)

theorem patterns_install_cases {source : String} {q : Program.Pattern}
    (hq : (m.install source R).program.patterns[i]? = some q) :
    (i < m.patterns.length ∧ m.patterns[i]? = some q) ∨
      i = m.patterns.length ∧ q = ⟨source, R.initial.toList.map (m.states.length + ·)⟩ := by
  change (m.patterns ++ [_])[i]? = some q at hq
  by_cases hold : i < m.patterns.length
  · rw [List.getElem?_append_left hold] at hq
    exact Or.inl ⟨hold, hq⟩
  · rw [List.getElem?_append_right (Nat.le_of_not_lt hold), List.getElem?_singleton] at hq
    split_ifs at hq with hnew
    exact Or.inr ⟨by omega, (Option.some.inj hq).symm⟩

theorem blocks_install (h : m.program.Blocks bound) (source : String) (R : Automaton) :
    (m.install source R).program.Blocks (extendBounds bound m.patterns.length R.size) := by
  have hlast : bound m.patterns.length = m.states.length := h.last
  have hpatterns : (m.install source R).program.patterns.length = m.patterns.length + 1 :=
    length_patterns_install m source R
  refine ⟨?_, ?_, ?_, ?_, ?_⟩
  · rw [extendBounds_of_le (Nat.zero_le _)]
    exact h.first
  · rw [hpatterns, extendBounds_succ, hlast]
    exact (length_states_install m source R).symm
  · intro i hi
    rw [hpatterns] at hi
    by_cases hold : i < m.patterns.length
    · rw [extendBounds_of_le (Nat.le_of_lt hold), extendBounds_of_le hold]
      exact h.step i hold
    · obtain rfl : i = m.patterns.length := by omega
      rw [extendBounds_of_le (Nat.le_refl _), extendBounds_succ]
      exact Nat.le_add_right _ _
  · intro i k s hi hs hlow hhigh e he
    change (m.install source R).states[k]? = some s at hs
    rw [hpatterns] at hi
    by_cases hold : i < m.patterns.length
    · have hnext : i + 1 ≤ m.patterns.length := hold
      have hle : bound (i + 1) ≤ m.states.length := h.bound_le hnext
      rw [extendBounds_of_le (Nat.le_of_lt hold)] at hlow ⊢
      rw [extendBounds_of_le hnext] at hhigh ⊢
      rcases states_install_cases hs with hstate | ⟨j, _, rfl, _⟩
      · exact h.source i k s hold hstate hlow hhigh e he
      · omega
    · obtain rfl : i = m.patterns.length := by omega
      rw [extendBounds_of_le (Nat.le_refl _), hlast] at hlow ⊢
      rw [extendBounds_succ, hlast]
      rcases states_install_cases hs with hstate | ⟨j, _, rfl, hplaces⟩
      · have hlt := (List.getElem?_eq_some_iff.mp hstate).1
        omega
      · exact hplaces.source_bounds e he
  · intro i q hq k hk
    rcases patterns_install_cases hq with ⟨hold, hq⟩ | ⟨rfl, rfl⟩
    · rw [extendBounds_of_le (Nat.le_of_lt hold), extendBounds_of_le hold]
      exact h.accepting i q hq k hk
    · obtain ⟨j, hj, rfl⟩ := List.mem_map.mp hk
      have hlt : j < R.size := R.initial_lt j hj
      rw [extendBounds_of_le (Nat.le_refl _), extendBounds_succ, hlast]
      omega

theorem Config.Sizes.install (h : m.config.Sizes m.program bound) {source : String} {r : Regex}
    (hr : Regex.parseWithin m.config.depth source = .ok r) :
    m.config.Sizes (m.install source (m.config.compiled r)).program
      (extendBounds bound m.patterns.length (m.config.compiled r).size) := by
  intro i q hq
  rcases patterns_install_cases hq with ⟨hold, hq⟩ | ⟨rfl, rfl⟩
  · rw [extendBounds_of_le (Nat.le_of_lt hold), extendBounds_of_le hold]
    exact h i q hq
  · refine ⟨r, hr, ?_⟩
    rw [extendBounds_of_le (Nat.le_refl _), extendBounds_succ]

end Install

/-- Whatever was offered to a matcher, its program is laid out in blocks and in order, and runs on a
machine. -/
theorem layout_offerAll (name : String) (config : Config) (sources : List String) :
    (∃ bound : Nat → Nat, ((new name config).offerAll sources).1.program.Blocks bound ∧
      config.Sizes ((new name config).offerAll sources).1.program bound) ∧
      ((new name config).offerAll sources).1.program.Orderly ∧
      ∃ machine, Machine.build ((new name config).offerAll sources).1.program = .ok machine := by
  have hrun := offerAll_induction (m := new name config)
    (motive := fun m _ ↦ m.config = config ∧ m.Sound ∧ m.Arranged ∧
      ∃ bound, m.program.Blocks bound ∧ config.Sizes m.program bound) sources
    ⟨rfl, sound_new name config, arranged_new name config, _, blocks_new name config,
      fun _ _ h ↦ absurd h nofun⟩ ?_
  · obtain ⟨_, hsound, harranged, hblocks⟩ := hrun
    exact ⟨hblocks, harranged.orderly hsound, hsound.exists_build⟩
  · rintro m grown taken source id ⟨rfl, hsound, harranged, bound, hblocks, hsizes⟩ happend
    obtain ⟨r, hr, _, _, _, rfl, _⟩ := append_eq_ok_iff.mp happend
    exact ⟨rfl, hsound.install _ _, harranged.install _ _, _, blocks_install hblocks _ _,
      hsizes.install hr⟩

end Matcher

end SignalRegex
