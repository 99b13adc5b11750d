import SignalRegex.Proofs.LiveStates
import SignalRegex.Proofs.Reductions

/-!
Pruning once is enough and does not show.

What is dropped are states that stand alone and accept the empty text, and only where another state
accepts it too. They have no edges, so nothing else was reached through them
(`mem_isolated_or_reachable_unmark`): after pruning the same edges lead into the states that are
left, and none of these stands alone now (`not_standsAlone_pruned`).
-/

set_option autoImplicit false

namespace SignalRegex.Automaton

variable {N : Automaton} {i j k : Nat}

/-- The state is initial and final, no edge leads out of it, and no edge leads into it from a state
that can be reached. -/
structure StandsAlone (N : Automaton) (i : Nat) : Prop where
  initial : i ∈ N.initial
  final : i ∈ N.finals
  noExit : N.targets i = []
  noEntry : ∀ k ∈ N.reachable, i ∉ N.targets k

/-- The state is initial and final, and an edge leads out of it. -/
structure GoesOn (N : Automaton) (i : Nat) : Prop where
  initial : i ∈ N.initial
  final : i ∈ N.finals
  exit : N.targets i ≠ []

theorem mem_isolated_iff_standsAlone : i ∈ N.isolated ↔ N.StandsAlone i := by
  rw [mem_isolated, mem_acceptingInitial, isTerminal_iff]
  constructor
  · rintro ⟨⟨hinitial, hfinal⟩, hexit, hentry⟩
    exact ⟨hinitial, hfinal, hexit, hentry⟩
  · rintro ⟨hinitial, hfinal, hexit, hentry⟩
    exact ⟨⟨hinitial, hfinal⟩, hexit, hentry⟩

/-! ### What is pruned -/

theorem prune_eq_of_goesOn (hi : N.StandsAlone i) (hj : N.GoesOn j) :
    N.prune = ((N.unmark N.isolated).compact, true) := by
  refine if_neg fun hnone ↦ ?_
  rcases Bool.or_eq_true_iff.mp hnone with hterminal | hempty
  · have hmem := mem_acceptingInitial.mpr ⟨hj.initial, hj.final⟩
    exact hj.exit (isTerminal_iff.mp (List.all_eq_true.mp hterminal j hmem))
  · have hmem := mem_isolated_iff_standsAlone.mpr hi
    rw [List.isEmpty_iff.mp hempty] at hmem
    exact absurd hmem List.not_mem_nil

theorem prune_eq_self (h : ¬ ((∃ i, N.StandsAlone i) ∧ ∃ j, N.GoesOn j)) :
    N.prune = (N, false) := by
  refine if_pos (Bool.or_eq_true_iff.mpr ?_)
  by_cases halone : ∃ i, N.StandsAlone i
  · refine Or.inl (List.all_eq_true.mpr fun j hj ↦ isTerminal_iff.mpr ?_)
    obtain ⟨hinitial, hfinal⟩ := mem_acceptingInitial.mp hj
    by_contra hexit
    exact h ⟨halone, j, hinitial, hfinal, hexit⟩
  · refine Or.inr (List.isEmpty_iff.mpr (List.eq_nil_iff_forall_not_mem.mpr fun i hi ↦ ?_))
    exact halone ⟨i, mem_isolated_iff_standsAlone.mp hi⟩

theorem prune_snd_eq_true_iff :
    N.prune.2 = true ↔ (∃ i, N.StandsAlone i) ∧ ∃ j, N.GoesOn j := by
  constructor
  · intro hpruned
    by_contra hnot
    rw [prune_eq_self hnot] at hpruned
    exact absurd hpruned Bool.false_ne_true
  · rintro ⟨⟨i, hi⟩, j, hj⟩
    rw [prune_eq_of_goesOn hi hj]

/-! ### Pruning again -/

/-- Nothing is reached through a state that stands alone, so the other states can still be reached
when its marks are gone. -/
theorem mem_isolated_or_reachable_unmark (hi : i ∈ N.reachable) :
    i ∈ N.isolated ∨ i ∈ (N.unmark N.isolated).reachable := by
  refine search_induction (P := fun i ↦ i ∈ N.isolated ∨ i ∈ (N.unmark N.isolated).reachable)
    ?_ ?_ i hi
  · intro a ha
    by_cases halone : a ∈ N.isolated
    · exact Or.inl halone
    · have hmarked : a ∈ (N.unmark N.isolated).initial :=
        IdSet.mem_filter.mpr ⟨ha, decide_eq_true halone⟩
      exact Or.inr (mem_reachable_of_mem_initial hmarked)
  · rintro a (halone | hreach) b hb
    · exact absurd hb (not_mem_targets_of_isTerminal (mem_isolated.mp halone).2.1)
    · exact Or.inr (mem_reachable_of_mem_targets hreach hb)

theorem not_standsAlone_pruned : ¬ (N.unmark N.isolated).compact.StandsAlone k := by
  intro hk
  have hnames := renaming_compact (N.unmark N.isolated)
  obtain ⟨i, hi, rfl⟩ := (hnames.initial k).mp hk.initial
  have hreach := mem_reachable_of_mem_initial hi
  have hfinal := (hnames.finals i hreach).mp hk.final
  obtain ⟨hinitial, hother⟩ := IdSet.mem_filter.mp hi
  have hexit : N.targets i = [] := by
    refine List.eq_nil_iff_forall_not_mem.mpr fun j hj ↦ ?_
    have hedge := (hnames.mem_targets_iff hreach).mpr ⟨j, hj, rfl⟩
    rw [hk.noExit] at hedge
    exact List.not_mem_nil hedge
  -- the state did not stand alone before, so an edge leads into it, and from a state that is left
  refine of_decide_eq_true hother (mem_isolated_iff_standsAlone.mpr
    ⟨hinitial, (IdSet.mem_filter.mp hfinal).1, hexit, fun a ha hedge ↦ ?_⟩)
  rcases mem_isolated_or_reachable_unmark ha with halone | hleft
  · exact not_mem_targets_of_isTerminal (mem_isolated.mp halone).2.1 hedge
  · exact hk.noEntry _ (hnames.mem_reachable_iff.mpr ⟨a, hleft, rfl⟩)
      ((hnames.mem_targets_iff hleft).mpr ⟨i, hedge, rfl⟩)

theorem prune_prune_snd (N : Automaton) : N.prune.1.prune.2 = false := by
  by_cases hboth : (∃ i, N.StandsAlone i) ∧ ∃ j, N.GoesOn j
  · obtain ⟨⟨i, hi⟩, j, hj⟩ := hboth
    rw [prune_eq_of_goesOn hi hj]
    have hnone : ¬ ∃ k, (N.unmark N.isolated).compact.StandsAlone k :=
      fun ⟨_, hk⟩ ↦ not_standsAlone_pruned hk
    rw [prune_eq_self fun hagain ↦ hnone hagain.1]
  · rw [prune_eq_self hboth, prune_eq_self hboth]

/-- Pruning keeps the accepted texts. It reports a change exactly where a state stands alone beside
one that goes on, leaves the automaton as it is where it reports none, and finds nothing to do a
second time. -/
theorem prune_keeps_accepts_and_settles (N : Automaton) :
    (∀ w, N.prune.1.Accepts w ↔ N.Accepts w) ∧
    (N.prune.2 = true ↔ (∃ i, N.StandsAlone i) ∧ ∃ j, N.GoesOn j) ∧
    (N.prune.2 = false → N.prune.1 = N) ∧ N.prune.1.prune.2 = false := by
  refine ⟨fun w ↦ ?_, prune_snd_eq_true_iff, fun hkept ↦ ?_, prune_prune_snd N⟩
  · rw [accepts_iff_acceptsBy_member, accepts_iff_acceptsBy_member]
    exact acceptsBy_prune
  · rw [prune_eq_self fun hboth ↦ ?_]
    exact Bool.false_ne_true (hkept.symm.trans (prune_snd_eq_true_iff.mpr hboth))

end SignalRegex.Automaton
