import SignalRegex.Proofs.Chains
import SignalRegex.Proofs.GrowingMatchers
import SignalRegex.Proofs.MachineRuns

/-!
How a matcher holds the automata of its patterns.

The states of a pattern lie next to each other and list the edges of the reversed automaton, each
with a condition from the common table. Later patterns add states, patterns and signals behind those
that are there, so what a matcher carries it carries for good (`Carries.install`), and a pattern
accepts by its automaton whatever else is in the matcher (`Carries.matchesAt_iff`). The tables of a
matcher always make up a program that runs (`Sound.consistent`).
-/

set_option autoImplicit false

namespace SignalRegex

namespace SignalTable

variable {t later : SignalTable} {label : CharSet} {c : Condition}

/-- The condition was given out for the label, by this table or by an earlier state of it. -/
def Encodes (t : SignalTable) (label : CharSet) (c : Condition) : Prop :=
  ∃ u : SignalTable, (u.intern label).2 = c ∧ (u.intern label).1.sets <+: t.sets

theorem Encodes.mono (h : t.Encodes label c) (hlater : t.sets <+: later.sets) :
    later.Encodes label c := by
  obtain ⟨u, hc, hu⟩ := h
  exact ⟨u, hc, hu.trans hlater⟩

theorem Encodes.holdsAt_iff (h : t.Encodes label c) (cp : Nat) :
    c.HoldsAt t.signals cp ↔ label.Tested cp := by
  obtain ⟨u, rfl, hu⟩ := h
  exact holdsAt_intern hu

theorem Encodes.signal_lt (h : t.Encodes label c) {id : Nat} (hid : c.signal? = some id) :
    id < t.signals.length := by
  obtain ⟨u, rfl, hu⟩ := h
  have hlength : (u.intern label).1.size ≤ t.signals.length := by
    rw [signals, List.length_map]
    exact hu.length_le
  exact Nat.lt_of_lt_of_le (signal?_intern_lt hid) hlength

end SignalTable

namespace Matcher

variable {m : Matcher} {t later : SignalTable} {offset i : Nat} {R : Automaton}
  {es : List Program.Edge} {ls : List (Nat × CharSet)} {s : Program.State}

/-! ### States and their edges -/

/-- An edge of the program for a labelled edge of the automaton. -/
def Mirrors (t : SignalTable) (offset : Nat) (e : Program.Edge) (l : Nat × CharSet) : Prop :=
  e.source = offset + l.1 ∧ t.Encodes l.2 e.condition

/-- The edges of the program are those of the automaton. -/
structure MirrorsAll (t : SignalTable) (offset : Nat) (es : List Program.Edge)
    (ls : List (Nat × CharSet)) : Prop where
  from_automaton : ∀ e ∈ es, ∃ l ∈ ls, Mirrors t offset e l
  to_program : ∀ l ∈ ls, ∃ e ∈ es, Mirrors t offset e l

theorem MirrorsAll.mono (h : MirrorsAll t offset es ls) (hlater : t.sets <+: later.sets) :
    MirrorsAll later offset es ls := by
  constructor
  · intro e he
    obtain ⟨l, hl, hsource, hencodes⟩ := h.from_automaton e he
    exact ⟨l, hl, hsource, hencodes.mono hlater⟩
  · intro l hl
    obtain ⟨e, he, hsource, hencodes⟩ := h.to_program l hl
    exact ⟨e, he, hsource, hencodes.mono hlater⟩

theorem prefix_incoming (offset : Nat) (t : SignalTable) (ls : List (Nat × CharSet)) :
    t.sets <+: (incoming offset t ls).1.sets := by
  induction ls generalizing t with
  | nil => exact List.prefix_rfl
  | cons l ls ih => exact (SignalTable.prefix_intern t l.2).trans (ih _)

theorem mirrorsAll_incoming (offset : Nat) (t : SignalTable) (ls : List (Nat × CharSet)) :
    MirrorsAll (incoming offset t ls).1 offset (incoming offset t ls).2 ls := by
  induction ls generalizing t with
  | nil => exact ⟨fun _ he ↦ absurd he List.not_mem_nil, fun _ hl ↦ absurd hl List.not_mem_nil⟩
  | cons l ls ih =>
    have hfirst : Mirrors (incoming offset t (l :: ls)).1 offset
        ⟨offset + l.1, (t.intern l.2).2⟩ l :=
      ⟨rfl, t, rfl, prefix_incoming offset (t.intern l.2).1 ls⟩
    have hrest := ih (t.intern l.2).1
    constructor
    · intro e he
      rcases List.mem_cons.mp he with rfl | he
      · exact ⟨l, List.mem_cons_self, hfirst⟩
      · obtain ⟨k, hk, hmirrors⟩ := hrest.from_automaton e he
        exact ⟨k, List.mem_cons_of_mem l hk, hmirrors⟩
    · intro k hk
      rcases List.mem_cons.mp hk with rfl | hk
      · exact ⟨_, List.mem_cons_self, hfirst⟩
      · obtain ⟨e, he, hmirrors⟩ := hrest.to_program k hk
        exact ⟨e, List.mem_cons_of_mem _ he, hmirrors⟩

/-- A state of the program for a state of the reversed automaton. -/
structure Places (t : SignalTable) (offset : Nat) (R : Automaton) (i : Nat)
    (s : Program.State) : Prop where
  index : s.index = offset + i
  initial : s.initial = true ↔ i ∈ R.finals
  incoming : MirrorsAll t offset s.incoming (R.state i).real.toList

theorem Places.mono (h : Places t offset R i s) (hlater : t.sets <+: later.sets) :
    Places later offset R i s :=
  ⟨h.index, h.initial, h.incoming.mono hlater⟩

/-- The edges into a state come from the states of the same automaton. -/
theorem Places.source_bounds (h : Places t offset R i s) :
    ∀ e ∈ s.incoming, offset ≤ e.source ∧ e.source < offset + R.size := by
  intro e he
  obtain ⟨l, hl, hsource, _⟩ := h.incoming.from_automaton e he
  have hlt : l.1 < R.size :=
    Automaton.lt_of_mem_targets (List.mem_append_left _ (List.mem_map_of_mem hl))
  omega

theorem prefix_rows (offset : Nat) (R : Automaton) (t : SignalTable) (ids : List Nat) :
    t.sets <+: (rows offset R t ids).1.sets := by
  induction ids generalizing t with
  | nil => exact List.prefix_rfl
  | cons i ids ih => exact (prefix_incoming offset t _).trans (ih _)

theorem length_rows (offset : Nat) (R : Automaton) (t : SignalTable) (ids : List Nat) :
    (rows offset R t ids).2.length = ids.length := by
  induction ids generalizing t with
  | nil => rfl
  | cons i ids ih => exact congrArg Nat.succ (ih _)

theorem places_rows (offset : Nat) (R : Automaton) (t : SignalTable) {ids : List Nat} {k : Nat}
    (hk : ids[k]? = some i) : ∃ s, (rows offset R t ids).2[k]? = some s ∧
      Places (rows offset R t ids).1 offset R i s := by
  induction ids generalizing t k with
  | nil => exact absurd hk nofun
  | cons j ids ih =>
    cases k with
    | zero =>
      obtain rfl := Option.some.inj hk
      refine ⟨_, rfl, rfl, decide_eq_true_iff, ?_⟩
      exact (mirrorsAll_incoming offset t _).mono (prefix_rows ..)
    | succ k => exact ih _ hk

/-! ### One more pattern -/

/-- The states of a reversed automaton lie in the matcher from `offset` on. -/
def Holds (m : Matcher) (offset : Nat) (R : Automaton) : Prop :=
  ∀ i < R.size, ∃ s, m.states[offset + i]? = some s ∧ Places m.table offset R i s

/-- The pattern with a given number is accepted by the given reversed automaton. -/
def Carries (m : Matcher) (k : Nat) (R : Automaton) : Prop :=
  ∃ offset pattern, m.patterns[k]? = some pattern ∧
    pattern.accepting = R.initial.toList.map (offset + ·) ∧ m.Holds offset R

theorem prefix_table_install (m : Matcher) (source : String) (R : Automaton) :
    m.table.sets <+: (m.install source R).table.sets :=
  prefix_rows ..

theorem prefix_states_install (m : Matcher) (source : String) (R : Automaton) :
    m.states <+: (m.install source R).states :=
  List.prefix_append _ _

theorem length_states_install (m : Matcher) (source : String) (R : Automaton) :
    (m.install source R).states.length = m.states.length + R.size := by
  change (m.states ++ _).length = _
  rw [List.length_append, length_rows, List.length_range]

theorem length_patterns_install (m : Matcher) (source : String) (R : Automaton) :
    (m.install source R).patterns.length = m.patterns.length + 1 :=
  List.length_append ..

theorem Holds.install (h : m.Holds offset R) (source : String) (R' : Automaton) :
    (m.install source R').Holds offset R := by
  intro i hi
  obtain ⟨s, hs, hplaces⟩ := h i hi
  exact ⟨s, getElem?_of_prefix (prefix_states_install m source R') hs,
    hplaces.mono (prefix_table_install m source R')⟩

theorem holds_install (m : Matcher) (source : String) (R : Automaton) :
    (m.install source R).Holds m.states.length R := by
  intro i hi
  have hrange : (List.range R.size)[i]? = some i := by rw [List.getElem?_range hi]
  obtain ⟨s, hs, hplaces⟩ := places_rows m.states.length R m.table hrange
  refine ⟨s, ?_, hplaces⟩
  change (m.states ++ _)[m.states.length + i]? = some s
  rw [List.getElem?_append_right (Nat.le_add_right _ _), Nat.add_sub_cancel_left]
  exact hs

/-- What a matcher carries it still carries with one more pattern. -/
theorem Carries.install {k : Nat} (h : m.Carries k R) (source : String) (R' : Automaton) :
    (m.install source R').Carries k R := by
  obtain ⟨offset, pattern, hpattern, haccepting, hholds⟩ := h
  exact ⟨offset, pattern, getElem?_of_prefix (List.prefix_append _ _) hpattern, haccepting,
    hholds.install source R'⟩

theorem carries_install (m : Matcher) (source : String) (R : Automaton) :
    (m.install source R).Carries m.patterns.length R := by
  refine ⟨m.states.length, ⟨source, _⟩, ?_, rfl, holds_install m source R⟩
  change (m.patterns ++ _)[m.patterns.length]? = _
  rw [List.getElem?_append_right (Nat.le_refl _), Nat.sub_self]
  rfl

/-! ### Runs of a pattern -/

/-- A code point leads into a state along the edges of the reversed automaton that read it. -/
theorem Places.exists_incoming_iff (h : Places t offset R i s) (cp : Nat) (P : Nat → Prop) :
    (∃ e ∈ s.incoming, e.condition.HoldsAt t.signals cp ∧ P e.source) ↔
      ∃ j, R.ReadsBy .tested i cp j ∧ P (offset + j) := by
  constructor
  · intro ⟨e, he, hholds, hP⟩
    obtain ⟨⟨j, label⟩, hl, hsource, hencodes⟩ := h.incoming.from_automaton e he
    exact ⟨j, ⟨label, hl, (hencodes.holdsAt_iff cp).mp hholds⟩, hsource ▸ hP⟩
  · intro ⟨j, ⟨label, hl, htested⟩, hP⟩
    obtain ⟨e, he, hsource, hencodes⟩ := h.incoming.to_program (j, label) hl
    exact ⟨e, he, (hencodes.holdsAt_iff cp).mpr htested, hsource ▸ hP⟩

/-- The runs to a state are the ways from the reversed automaton's state to a final one, read
backwards. -/
theorem Holds.run_iff (h : m.Holds offset R) (hfree : R.EpsilonFree) {w : List Nat}
    (hi : i < R.size) : m.program.Run w (offset + i) ↔
      ∃ f ∈ R.finals, Chain (R.ReadsBy .tested) R.Slides i w.reverse f := by
  -- the last step of a run is the first edge of the chain, so the text is taken apart at its end
  induction w using List.reverseRecOn generalizing i with
  | nil =>
    obtain ⟨s, hs, hplaces⟩ := h i hi
    have hstate : m.program.states[offset + i]? = some s := hs
    rw [Program.run_nil, hstate]
    simp only [Option.some.injEq, exists_eq_left', hplaces.initial, List.reverse_nil,
      Chain.nil_iff hfree, exists_eq_right']
  | append_singleton w cp ih =>
    obtain ⟨s, hs, hplaces⟩ := h i hi
    have hstate : m.program.states[offset + i]? = some s := hs
    have hincoming := hplaces.exists_incoming_iff cp (m.program.Run w)
    rw [Program.run_append_singleton, hstate]
    simp only [Option.some.injEq, exists_eq_left', List.reverse_append, List.reverse_singleton,
      List.singleton_append, Chain.cons_iff hfree]
    refine hincoming.trans ⟨?_, ?_⟩
    · intro ⟨j, hread, hrun⟩
      obtain ⟨f, hf, hchain⟩ := (ih (Automaton.lt_of_mem_targets hread.mem_targets)).mp hrun
      exact ⟨f, hf, j, hread, hchain⟩
    · intro ⟨f, hf, j, hread, hchain⟩
      exact ⟨j, hread, (ih (Automaton.lt_of_mem_targets hread.mem_targets)).mpr ⟨f, hf, hchain⟩⟩

/-- Whatever else a matcher carries, a pattern matches a text where its reversed automaton accepts
the text read backwards. -/
theorem Carries.matchesAt_iff {k : Nat} (h : m.Carries k R) (hfree : R.EpsilonFree) :
    ∃ pattern, m.program.patterns[k]? = some pattern ∧
      ∀ w, m.program.MatchesAt pattern w ↔ R.AcceptsBy .tested w.reverse := by
  obtain ⟨offset, pattern, hpattern, haccepting, hholds⟩ := h
  refine ⟨pattern, hpattern, fun w ↦ ?_⟩
  rw [Program.MatchesAt, haccepting]
  constructor
  · rintro ⟨q, hq, hrun⟩
    obtain ⟨i, hi, rfl⟩ := List.mem_map.mp hq
    obtain ⟨f, hf, hchain⟩ := (hholds.run_iff hfree (R.initial_lt i hi)).mp hrun
    exact ⟨i, hi, f, hf, hchain⟩
  · rintro ⟨i, hi, f, hf, hchain⟩
    exact ⟨offset + i, List.mem_map_of_mem hi,
      (hholds.run_iff hfree (R.initial_lt i hi)).mpr ⟨f, hf, hchain⟩⟩

/-! ### Consistency -/

/-- Every number in the tables of the matcher points into its table. -/
structure Sound (m : Matcher) : Prop where
  index : ∀ (i : Nat) (s : Program.State), m.states[i]? = some s → s.index = i
  source : ∀ s ∈ m.states, ∀ e ∈ s.incoming, e.source < m.states.length
  signal : ∀ s ∈ m.states, ∀ e ∈ s.incoming, ∀ id, e.condition.signal? = some id →
    id < m.table.signals.length
  accepting : ∀ q ∈ m.patterns, ∀ s ∈ q.accepting, s < m.states.length

theorem sound_new (name : String) (config : Config) : (new name config).Sound := by
  refine ⟨?_, ?_, ?_, ?_⟩
  · exact fun _ _ h ↦ absurd h nofun
  · exact fun _ h ↦ absurd h List.not_mem_nil
  · exact fun _ h ↦ absurd h List.not_mem_nil
  · exact fun _ h ↦ absurd h List.not_mem_nil

theorem states_install_cases {source : String} {q : Nat}
    (hs : (m.install source R).states[q]? = some s) :
    m.states[q]? = some s ∨ ∃ i < R.size, q = m.states.length + i ∧
      Places (m.install source R).table m.states.length R i s := by
  by_cases hq : q < m.states.length
  · change (m.states ++ _)[q]? = some s at hs
    rw [List.getElem?_append_left hq] at hs
    exact Or.inl hs
  · obtain ⟨i, rfl⟩ := Nat.exists_eq_add_of_le (Nat.le_of_not_lt hq)
    have hlength := (List.getElem?_eq_some_iff.mp hs).1
    rw [length_states_install] at hlength
    have hi : i < R.size := Nat.lt_of_add_lt_add_left hlength
    obtain ⟨s', hs', hplaces⟩ := holds_install m source R i hi
    obtain rfl := Option.some.inj (hs.symm.trans hs')
    exact Or.inr ⟨i, hi, rfl, hplaces⟩

theorem Sound.install (h : m.Sound) (source : String) (R : Automaton) :
    (m.install source R).Sound := by
  have hgrown := length_states_install m source R
  have hsignals : m.table.signals.length ≤ (m.install source R).table.signals.length := by
    rw [SignalTable.signals, SignalTable.signals, List.length_map, List.length_map]
    exact (prefix_table_install m source R).length_le
  refine ⟨?_, ?_, ?_, ?_⟩
  · intro q s hs
    rcases states_install_cases hs with hold | ⟨i, _, rfl, hplaces⟩
    · exact h.index q s hold
    · exact hplaces.index
  · intro s hs e he
    obtain ⟨q, hq⟩ := List.getElem?_of_mem hs
    rcases states_install_cases hq with hold | ⟨i, _, rfl, hplaces⟩
    · have hlt := h.source s (List.mem_of_getElem? hold) e he
      omega
    · have hlt := hplaces.source_bounds e he
      omega
  · intro s hs e he id hid
    obtain ⟨q, hq⟩ := List.getElem?_of_mem hs
    rcases states_install_cases hq with hold | ⟨i, _, rfl, hplaces⟩
    · exact Nat.lt_of_lt_of_le (h.signal s (List.mem_of_getElem? hold) e he id hid) hsignals
    · obtain ⟨l, _, _, hencodes⟩ := hplaces.incoming.from_automaton e he
      exact hencodes.signal_lt hid
  · intro pattern hpattern q hq
    rcases List.mem_append.mp hpattern with hold | hnew
    · have hlt := h.accepting pattern hold q hq
      omega
    · obtain rfl := List.mem_singleton.mp hnew
      obtain ⟨i, hi, rfl⟩ := List.mem_map.mp hq
      have hlt : i < R.size := R.initial_lt i hi
      omega

theorem Sound.consistent (h : m.Sound) : m.program.Consistent :=
  ⟨rfl, h.index, h.source, h.signal, h.accepting, fun _ hs _ hr ↦
    Program.isSome_tap?_sharedSubranges hs hr⟩

theorem Sound.exists_build (h : m.Sound) : ∃ machine, Machine.build m.program = .ok machine :=
  ⟨_, Machine.build_eq_ok_iff.mpr ⟨h.consistent, rfl⟩⟩

end Matcher

end SignalRegex
