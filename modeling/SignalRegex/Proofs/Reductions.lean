import SignalRegex.Automaton.Collapse
import SignalRegex.Automaton.Prune
import SignalRegex.Proofs.Renumbering

/-!
Merging and pruning accept the same texts.

A merge can lead several edges into one and join their labels, so the merged automaton is a
refinement (`refines_minimize`): under membership it accepts the same, and under other readings it
may accept more. Pruning joins nothing (`acceptsBy_prune`).
-/

set_option autoImplicit false

namespace SignalRegex.Automaton

variable {N : Automaton} {ρ : Reading} {i j cp : Nat} {w : List Nat}

/-! ### One round of merging -/

theorem state_representative (N : Automaton) (order : List Nat) (i : Nat) :
    N.state (N.representative order i) = N.state i :=
  congrArg Prod.snd (signature_representative N order i)

theorem reads_representative {order : List Nat} :
    N.Reads (N.representative order i) cp j ↔ N.Reads i cp j := by
  rw [Reads, state_representative]
  exact Iff.rfl

theorem slides_representative {order : List Nat} :
    N.Slides (N.representative order i) j ↔ N.Slides i j := by
  rw [Slides, state_representative]
  exact Iff.rfl

theorem mem_finals_representative {order : List Nat} :
    N.representative order i ∈ N.finals ↔ i ∈ N.finals := by
  have h := congrArg Prod.fst (signature_representative N order i)
  exact decide_eq_decide.mp h

/-- The automaton of one round, before it is renumbered. -/
def merged (N : Automaton) : Automaton :=
  N.identify N.reachable (N.representative N.reachable)

/-- A state and its representative read the same, and the representative goes to the representative
of where the state goes. -/
theorem renaming_merged (N : Automaton) : Renaming N N.merged (N.representative N.reachable) := by
  have hlt : ∀ {i}, i ∈ N.reachable → N.representative N.reachable i < N.size :=
    fun hi ↦ lt_of_mem_reachable (representative_mem hi)
  have hkept : ∀ {i}, i ∈ N.reachable → N.representative N.reachable i ∈
      N.reachable.filter fun i ↦ N.representative N.reachable i = i := fun hi ↦
    List.mem_filter.mpr ⟨representative_mem hi, decide_eq_true (representative_representative hi)⟩
  refine ⟨?_, ?_, ?_, ?_⟩
  · intro k
    rw [merged, identify, mem_initial_ofEdges, List.mem_map]
    refine and_iff_left_of_imp fun ⟨i, hi, hk⟩ ↦ ?_
    exact hk ▸ hlt (mem_reachable_of_mem_initial hi)
  · intro i hi cp k
    rw [merged, identify, reads_ofEdges_map (fun a _ ↦ a) fun _ b ↦ N.representative N.reachable b]
    constructor
    · rintro ⟨_, _, a, _, j, hread, rfl, htarget⟩
      exact ⟨j, reads_representative.mp hread, htarget⟩
    · rintro ⟨j, hread, rfl⟩
      exact ⟨hlt hi, hlt (hread.reachable hi), _, hkept hi, j, reads_representative.mpr hread, rfl,
        rfl⟩
  · intro i hi k
    rw [merged, identify, slides_ofEdges_map]
    constructor
    · rintro ⟨_, _, a, _, j, hslide, heq⟩
      obtain ⟨rfl, htarget⟩ := Prod.mk.inj heq
      exact ⟨j, slides_representative.mp hslide, htarget⟩
    · rintro ⟨j, hslide, rfl⟩
      exact ⟨hlt hi, hlt (hslide.reachable hi), _, hkept hi, j, slides_representative.mpr hslide,
        rfl⟩
  · intro i hi
    rw [merged, identify, mem_finals_ofEdges, List.mem_map]
    constructor
    · rintro ⟨⟨f, hf, heq⟩, _⟩
      exact mem_finals_representative.mp (heq ▸ mem_finals_representative.mpr hf)
    · intro hf
      exact ⟨⟨i, hf, rfl⟩, hlt hi⟩

theorem eq_merged_of_mergeRound? {M : Automaton} (h : N.mergeRound? = some M) :
    M = N.merged.compact := by
  unfold mergeRound? at h
  dsimp only at h
  split_ifs at h with hall
  exact (Option.some.inj h).symm

theorem refines_mergeRound? {M : Automaton} (h : N.mergeRound? = some M) : N.Refines M := by
  obtain rfl := eq_merged_of_mergeRound? h
  exact (renaming_merged N).refines.trans (.of_iff fun _ _ ↦ acceptsBy_compact.symm)

/-! ### Rounds of merging -/

theorem mergeRound?_eq_some_merged
    (h : (N.reachable.all fun i ↦ N.representative N.reachable i = i) = false) :
    N.mergeRound? = some N.merged.compact := by
  unfold mergeRound?
  dsimp only
  rw [if_neg (Bool.not_eq_true _ ▸ h)]
  rfl

theorem collapse_of_mergeRound?_eq_some {M : Automaton} (h : N.mergeRound? = some M) :
    N.collapse.1 = M.collapse.1 := by
  rw [collapse]
  split
  · rename_i hnone
    rw [hnone] at h
    cases h
  · rename_i hsome
    rw [hsome] at h
    rw [Option.some.inj h]

theorem collapse_of_mergeRound?_eq_none (h : N.mergeRound? = none) : N.collapse.1 = N := by
  rw [collapse]
  split
  · rfl
  · rename_i hsome
    rw [hsome] at h
    cases h

theorem refines_collapse (N : Automaton) : N.Refines N.collapse.1 := by
  fun_induction collapse N with
  | case1 N h => exact .refl N
  | case2 N M h ih => exact (refines_mergeRound? h).trans ih

/-- An automaton that was reversed and merged and reversed again. -/
theorem refines_collapse_reverse (N : Automaton) : N.Refines N.reverse.collapse.1.reverse := by
  have hback : N.Refines N.reverse.reverse := by
    refine .of_iff fun ρ w ↦ ?_
    rw [acceptsBy_reverse, acceptsBy_reverse, List.reverse_reverse]
  exact hback.trans (refines_collapse N.reverse).reverse

theorem refines_minimize (N : Automaton) : N.Refines N.minimize := by
  fun_induction minimize N with
  | case1 N forward backward _ ih =>
    exact (refines_collapse N).trans ((refines_collapse_reverse _).trans ih)
  | case2 N forward backward _ =>
    exact (refines_collapse N).trans (refines_collapse_reverse _)

/-- What is accepted after one turn of merging forwards and backwards is accepted in the end. -/
theorem acceptsBy_minimize_of_collapse
    (h : N.collapse.1.reverse.collapse.1.reverse.AcceptsBy ρ w) : N.minimize.AcceptsBy ρ w := by
  rw [minimize]
  split_ifs with hagain
  · exact (refines_minimize _).keeps ρ w h
  · exact h

/-! ### Pruning -/

theorem mem_acceptingInitial : i ∈ N.acceptingInitial ↔ i ∈ N.initial ∧ i ∈ N.finals := by
  rw [acceptingInitial, List.mem_filter, decide_eq_true_eq]
  exact Iff.rfl

theorem mem_isolated : i ∈ N.isolated ↔
    i ∈ N.acceptingInitial ∧ (N.state i).isTerminal = true ∧
      ∀ k ∈ N.reachable, i ∉ N.targets k := by
  rw [isolated, List.mem_filter, Bool.and_eq_true, decide_eq_true_eq, List.mem_flatMap]
  simp only [not_exists, not_and]

theorem isTerminal_iff : (N.state i).isTerminal = true ↔ N.targets i = [] := by
  rw [State.isTerminal, Bool.and_eq_true, List.isEmpty_iff, List.isEmpty_iff, targets,
    State.targets, List.append_eq_nil_iff, EdgeMap.targets, List.map_eq_nil_iff]

theorem not_mem_targets_of_isTerminal (h : (N.state i).isTerminal = true) : j ∉ N.targets i := by
  rw [isTerminal_iff.mp h]
  exact List.not_mem_nil

/-- No chain leaves a state without edges. -/
theorem chain_of_isTerminal (h : (N.state i).isTerminal = true)
    (hchain : Chain (N.ReadsBy ρ) N.Slides i w j) : w = [] ∧ j = i := by
  cases hchain with
  | refl => exact ⟨rfl, rfl⟩
  | slide ht _ => exact absurd ht.mem_targets (not_mem_targets_of_isTerminal h)
  | read ht _ => exact absurd ht.mem_targets (not_mem_targets_of_isTerminal h)

/-- A chain ends in a state without incoming edges only where it starts there. -/
theorem eq_of_chain_of_not_entered (hentered : ∀ k ∈ N.reachable, j ∉ N.targets k)
    (hi : i ∈ N.reachable) (hchain : Chain (N.ReadsBy ρ) N.Slides i w j) : j = i := by
  have hend : j ∈ N.reachable ∧ (j = i ∨ ∃ k ∈ N.reachable, j ∈ N.targets k) :=
    hchain.invariant
      (P := fun b ↦ b ∈ N.reachable ∧ (b = i ∨ ∃ k ∈ N.reachable, b ∈ N.targets k))
      (fun a ha _ _ h ↦ ⟨h.reachable ha.1, Or.inr ⟨a, ha.1, h.mem_targets⟩⟩)
      (fun a ha _ h ↦ ⟨h.reachable ha.1, Or.inr ⟨a, ha.1, h.mem_targets⟩⟩) ⟨hi, Or.inl rfl⟩
  exact hend.2.resolve_right fun ⟨k, hk, hj⟩ ↦ hentered k hk hj

theorem acceptsBy_of_unmark {ids : List Nat} (h : (N.unmark ids).AcceptsBy ρ w) :
    N.AcceptsBy ρ w := by
  obtain ⟨i, hi, f, hf, hchain⟩ := h
  exact ⟨i, (IdSet.mem_filter.mp hi).1, f, (IdSet.mem_filter.mp hf).1, hchain⟩

/-- An isolated state accepts the empty text alone, and so does any other state that is initial and
final. -/
theorem acceptsBy_unmark_isolated {k : Nat} (hk : k ∈ N.acceptingInitial) (hother : k ∉ N.isolated)
    (h : N.AcceptsBy ρ w) : (N.unmark N.isolated).AcceptsBy ρ w := by
  have hmarked : ∀ {s : IdSet} {a : Nat}, a ∈ s → a ∉ N.isolated →
      a ∈ s.filter (· ∉ N.isolated) :=
    fun ha hiso ↦ IdSet.mem_filter.mpr ⟨ha, decide_eq_true hiso⟩
  obtain ⟨i, hi, f, hf, hchain⟩ := h
  by_cases hiso : i ∈ N.isolated
  · obtain ⟨rfl, -⟩ := chain_of_isTerminal (mem_isolated.mp hiso).2.1 hchain
    have hboth := mem_acceptingInitial.mp hk
    exact ⟨k, hmarked hboth.1 hother, k, hmarked hboth.2 hother, .refl k⟩
  · have hiso' : f ∉ N.isolated := fun hfiso ↦ hiso <|
      eq_of_chain_of_not_entered (mem_isolated.mp hfiso).2.2 (mem_reachable_of_mem_initial hi)
        hchain ▸ hfiso
    exact ⟨i, hmarked hi hiso, f, hmarked hf hiso', hchain⟩

theorem acceptsBy_prune : N.prune.1.AcceptsBy ρ w ↔ N.AcceptsBy ρ w := by
  unfold prune
  split_ifs with hnone
  · rfl
  · rw [Bool.or_eq_true, not_or, List.all_eq_true] at hnone
    obtain ⟨hsome, -⟩ := hnone
    obtain ⟨k, hk, hterminal⟩ := not_forall₂.mp hsome
    have hother : k ∉ N.isolated := fun hiso ↦ hterminal (mem_isolated.mp hiso).2.1
    rw [acceptsBy_compact]
    exact ⟨acceptsBy_of_unmark, acceptsBy_unmark_isolated hk hother⟩

/-! ### No epsilon edges -/

theorem EpsilonFree.collapse (h : N.EpsilonFree) : N.collapse.1.EpsilonFree := by
  fun_induction Automaton.collapse N with
  | case1 N hround => exact h
  | case2 N M hround ih =>
    obtain rfl := eq_merged_of_mergeRound? hround
    exact ih (EpsilonFree.compact h.ofEdges_map)

theorem EpsilonFree.minimize (h : N.EpsilonFree) : N.minimize.EpsilonFree := by
  fun_induction Automaton.minimize N with
  | case1 N forward backward _ ih => exact ih h.collapse.reverse.collapse.reverse
  | case2 N forward backward _ => exact h.collapse.reverse.collapse.reverse

theorem EpsilonFree.prune (h : N.EpsilonFree) : N.prune.1.EpsilonFree := by
  unfold Automaton.prune
  split_ifs with hnone
  · exact h
  · exact EpsilonFree.compact h

/-- What is done to an automaton once its epsilon edges are gone. -/
inductive Pass where
  | collapse
  | minimize
  | prune
  | compact
  | reverse

namespace Pass

def run : Pass → Automaton → Automaton
  | .collapse, N => N.collapse.1
  | .minimize, N => N.minimize
  | .prune, N => N.prune.1
  | .compact, N => N.compact
  | .reverse, N => N.reverse

/-- The passes one after the other. -/
def runAll (passes : List Pass) (N : Automaton) : Automaton :=
  passes.foldl (fun M p ↦ p.run M) N

end Pass

theorem EpsilonFree.run (h : N.EpsilonFree) (p : Pass) : (p.run N).EpsilonFree := by
  cases p with
  | collapse => exact h.collapse
  | minimize => exact h.minimize
  | prune => exact h.prune
  | compact => exact h.compact
  | reverse => exact h.reverse

/-- No sequence of passes brings an epsilon edge back. -/
theorem EpsilonFree.runAll (h : N.EpsilonFree) (passes : List Pass) :
    (Pass.runAll passes N).EpsilonFree := by
  induction passes generalizing N with
  | nil => exact h
  | cons p passes ih => exact ih (h.run p)

end SignalRegex.Automaton
