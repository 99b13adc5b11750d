import Mathlib.Logic.Relation
import SignalRegex.Automaton.Epsilon
import SignalRegex.Proofs.Renumbering

/-!
Removal of epsilon edges keeps the accepted texts (`acceptsBy_withoutEpsilon`).

A chain with epsilon edges is cut behind each edge that reads: what slides on from there goes into
the bypassing edge, what slides before the first one into the initial states, and what slides after
the last one into the final states.
-/

set_option autoImplicit false

namespace SignalRegex.Automaton

variable {N : Automaton} {i j k cp : Nat} {w : List Nat}

/-- Epsilon edges lead from `i` to `j`. -/
def Glides (N : Automaton) : Nat → Nat → Prop :=
  Relation.ReflTransGen N.Slides

theorem Glides.chain (h : N.Glides i j) : Chain N.Reads N.Slides i [] j := by
  induction h using Relation.ReflTransGen.head_induction_on with
  | refl => exact .refl j
  | head hslide _ ih => exact .slide hslide ih

theorem Glides.reachable (h : N.Glides i j) (hi : i ∈ N.reachable) : j ∈ N.reachable := by
  induction h with
  | refl => exact hi
  | tail _ hslide ih => exact hslide.reachable ih

theorem mem_closure {roots : List Nat} (hroots : ∀ i ∈ roots, i < N.size) :
    j ∈ N.closure roots ↔ ∃ i ∈ roots, N.Glides i j := by
  rw [closure, IdSet.mem_ofList]
  constructor
  · refine search_induction (P := fun k ↦ ∃ i ∈ roots, N.Glides i k) ?_ ?_ j
    · intro i hi
      exact ⟨i, hi, .refl⟩
    · intro k ⟨i, hi, hglide⟩ t ht
      exact ⟨i, hi, hglide.tail ht⟩
  · intro ⟨i, hi, hglide⟩
    induction hglide with
    | refl => exact mem_search_of_mem_roots hi (hroots i hi)
    | tail _ hslide ih => exact mem_search_of_mem_next ih hslide hslide.lt.2

theorem mem_closure_singleton (hi : i < N.size) : j ∈ N.closure [i] ↔ N.Glides i j := by
  have hroots : ∀ k ∈ [i], k < N.size := fun k hk ↦ List.mem_singleton.mp hk ▸ hi
  rw [mem_closure hroots]
  simp only [List.mem_singleton, exists_eq_left]

theorem finishes_iff (hi : i < N.size) :
    N.finishes i = true ↔ ∃ f ∈ N.finals, N.Glides i f := by
  rw [finishes, List.any_eq_true]
  constructor
  · intro ⟨f, hf, hfinal⟩
    exact ⟨f, of_decide_eq_true hfinal, (mem_closure_singleton hi).mp hf⟩
  · intro ⟨f, hfinal, hglide⟩
    exact ⟨f, (mem_closure_singleton hi).mpr hglide, decide_eq_true hfinal⟩

/-- The automaton without epsilon edges, before it is renumbered. -/
def bypassed (N : Automaton) : Automaton :=
  ofEdges N.size N.bypassEdges [] (N.closure N.initial.toList).toList
    (N.reachable.filter N.finishes)

theorem reads_bypassed : N.bypassed.Reads i cp k ↔
    i ∈ N.reachable ∧ ∃ j, N.Reads i cp j ∧ N.Glides j k := by
  rw [bypassed, reads_ofEdges]
  constructor
  · intro ⟨_, _, e, he, hsource, htarget, hcp⟩
    obtain ⟨f, hf, he⟩ := List.mem_flatMap.mp he
    obtain ⟨t, ht, rfl⟩ := List.mem_map.mp he
    obtain ⟨hs, hlabel⟩ := mem_realsFrom.mp hf
    subst hsource htarget
    have hread : N.Reads f.source cp f.target := ⟨f.label, hlabel, hcp⟩
    exact ⟨hs, f.target, hread, (mem_closure_singleton hread.lt.2).mp ht⟩
  · intro ⟨hi, j, hread, hglide⟩
    have hk := lt_of_mem_reachable (hglide.reachable (hread.reachable hi))
    refine ⟨lt_of_mem_reachable hi, hk, ?_⟩
    have ht := (mem_closure_singleton hread.lt.2).mpr hglide
    obtain ⟨label, hlabel, hcp⟩ := hread
    have hedge := (mem_realsFrom (e := ⟨i, label, j⟩)).mpr ⟨hi, hlabel⟩
    refine ⟨⟨i, label, k⟩, List.mem_flatMap.mpr ⟨_, hedge, ?_⟩, rfl, rfl, hcp⟩
    exact List.mem_map.mpr ⟨k, ht, rfl⟩

theorem not_slides_bypassed : ¬ N.bypassed.Slides i j := by
  rw [bypassed, slides_ofEdges]
  exact fun h ↦ List.not_mem_nil h.2.2

theorem mem_initial_bypassed : k ∈ N.bypassed.initial ↔ ∃ i ∈ N.initial, N.Glides i k := by
  rw [bypassed, mem_initial_ofEdges, ← IdSet.mem_def, mem_closure N.initial_lt]
  refine and_iff_left_of_imp fun ⟨i, hi, hglide⟩ ↦ ?_
  exact lt_of_mem_reachable (hglide.reachable (mem_reachable_of_mem_initial hi))

theorem mem_finals_bypassed : k ∈ N.bypassed.finals ↔
    k ∈ N.reachable ∧ ∃ f ∈ N.finals, N.Glides k f := by
  rw [bypassed, mem_finals_ofEdges, List.mem_filter]
  constructor
  · intro ⟨⟨hk, hfinishes⟩, hlt⟩
    exact ⟨hk, (finishes_iff hlt).mp hfinishes⟩
  · intro ⟨hk, hfinal⟩
    have hlt := lt_of_mem_reachable hk
    exact ⟨⟨hk, (finishes_iff hlt).mpr hfinal⟩, hlt⟩

/-- From a state that epsilon edges reach, the rest of a chain goes on without them. -/
theorem chain_bypassed {f : Nat} (hf : f ∈ N.finals) (h : Chain N.Reads N.Slides i w f)
    (hi : i ∈ N.reachable) :
    ∃ k, N.Glides i k ∧
      ∃ g ∈ N.bypassed.finals, Chain N.bypassed.Reads N.bypassed.Slides k w g := by
  -- `k` is where the next edge that reads leaves from, or where the chain can end
  induction h with
  | refl i => exact ⟨i, .refl, i, mem_finals_bypassed.mpr ⟨hi, i, hf, .refl⟩, .refl i⟩
  | slide hslide _ ih =>
    obtain ⟨k, hglide, hrest⟩ := ih hf (hslide.reachable hi)
    exact ⟨k, .head hslide hglide, hrest⟩
  | @read i cp t f w hread _ ih =>
    obtain ⟨k, hglide, g, hg, hrest⟩ := ih hf (hread.reachable hi)
    exact ⟨i, .refl, g, hg, .read (reads_bypassed.mpr ⟨hi, t, hread, hglide⟩) hrest⟩

theorem chain_of_bypassed {g : Nat} (hg : g ∈ N.bypassed.finals)
    (h : Chain N.bypassed.Reads N.bypassed.Slides i w g) :
    ∃ f ∈ N.finals, Chain N.Reads N.Slides i w f := by
  induction h with
  | refl i =>
    obtain ⟨_, f, hf, hglide⟩ := mem_finals_bypassed.mp hg
    exact ⟨f, hf, hglide.chain⟩
  | slide hslide _ _ => exact absurd hslide not_slides_bypassed
  | read hread _ ih =>
    obtain ⟨_, j, hj, hglide⟩ := reads_bypassed.mp hread
    obtain ⟨f, hf, hchain⟩ := ih hg
    exact ⟨f, hf, .read hj (hglide.chain.trans hchain)⟩

theorem acceptsBy_bypassed : N.bypassed.AcceptsBy .member w ↔ N.AcceptsBy .member w := by
  constructor
  · intro ⟨k, hk, g, hg, hchain⟩
    obtain ⟨i, hi, hglide⟩ := mem_initial_bypassed.mp hk
    obtain ⟨f, hf, hrest⟩ := chain_of_bypassed hg hchain
    exact ⟨i, hi, f, hf, hglide.chain.trans hrest⟩
  · intro ⟨i, hi, f, hf, hchain⟩
    obtain ⟨k, hglide, g, hg, hrest⟩ :=
      chain_bypassed hf hchain (mem_reachable_of_mem_initial hi)
    exact ⟨k, mem_initial_bypassed.mpr ⟨i, hi, hglide⟩, g, hg, hrest⟩

/-- An automaton without its epsilon edges accepts the same texts. -/
theorem acceptsBy_withoutEpsilon :
    N.withoutEpsilon.AcceptsBy .member w ↔ N.AcceptsBy .member w :=
  acceptsBy_compact.trans acceptsBy_bypassed

theorem epsilonFree_withoutEpsilon (N : Automaton) : N.withoutEpsilon.EpsilonFree :=
  EpsilonFree.compact fun _ _ ↦ not_slides_bypassed

end SignalRegex.Automaton
