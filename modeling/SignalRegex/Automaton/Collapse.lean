import SignalRegex.Automaton.Compact

/-!
Merging of equal states.

Two states are merged when both or neither are final and the same edges leave them. On the reversed
automaton the same merges states with the same edges into them. Each round that merges anything
leaves fewer states than were reachable (`size_mergeRound_lt`), so the rounds end, and so does going
forwards and backwards in turn.
-/

set_option autoImplicit false

namespace SignalRegex.Automaton

/-- What two states must agree on to be merged. -/
def signature (N : Automaton) (i : Nat) : Bool × State :=
  (decide (i ∈ N.finals), N.state i)

/-- Whether two states have the same signature. The edges are compared first, since they differ for
most pairs. -/
def sameSignature (N : Automaton) (i j : Nat) : Bool :=
  decide (N.state i = N.state j) && decide (i ∈ N.finals) == decide (j ∈ N.finals)

theorem sameSignature_eq_decide (N : Automaton) (i j : Nat) :
    N.sameSignature i j = decide (N.signature i = N.signature j) := by
  rw [Bool.eq_iff_iff]
  simp only [sameSignature, signature, Bool.and_eq_true, beq_iff_eq, decide_eq_true_eq,
    Prod.mk.injEq]
  exact and_comm

/-- The first of the listed states with the same signature, or the state itself. -/
def representative (N : Automaton) (order : List Nat) (i : Nat) : Nat :=
  (order.find? fun j ↦ N.sameSignature j i).getD i

theorem representative_eq (N : Automaton) (order : List Nat) (i : Nat) :
    N.representative order i =
      (order.find? fun j ↦ decide (N.signature j = N.signature i)).getD i := by
  simp only [representative, sameSignature_eq_decide]

/-- Every state of the list in its representative's place, and only the edges of
representatives. -/
def identify (N : Automaton) (order : List Nat) (representative : Nat → Nat) : Automaton :=
  let kept := order.filter fun i ↦ representative i = i
  ofEdges N.size
    ((N.realsFrom kept).map fun e ↦ ⟨e.source, e.label, representative e.target⟩)
    ((N.epsilonsFrom kept).map fun e ↦ (e.1, representative e.2))
    (N.initial.toList.map representative)
    (N.finals.toList.map representative)

/-- One round of merging, if there is anything to merge. -/
def mergeRound? (N : Automaton) : Option Automaton :=
  let order := N.reachable
  let representative := N.representative order
  if order.all fun i ↦ representative i = i then none
  else some (N.identify order representative).compact

theorem representative_mem {N : Automaton} {order : List Nat} {i : Nat} (hi : i ∈ order) :
    N.representative order i ∈ order := by
  rw [representative_eq]
  cases h : order.find? fun j ↦ decide (N.signature j = N.signature i) with
  | none => exact hi
  | some j => exact List.mem_of_find?_eq_some h

theorem signature_representative (N : Automaton) (order : List Nat) (i : Nat) :
    N.signature (N.representative order i) = N.signature i := by
  rw [representative_eq]
  cases h : order.find? fun j ↦ decide (N.signature j = N.signature i) with
  | none => rfl
  | some j =>
    have := List.find?_some h
    exact of_decide_eq_true this

theorem representative_representative {N : Automaton} {order : List Nat} {i : Nat}
    (hi : i ∈ order) :
    N.representative order (N.representative order i) = N.representative order i := by
  have hsame : N.representative order (N.representative order i) =
      (order.find? fun j ↦ decide (N.signature j = N.signature i)).getD
        (N.representative order i) := by
    rw [representative_eq, signature_representative N order i]
  cases h : order.find? fun j ↦ decide (N.signature j = N.signature i) with
  | none =>
    have := List.find?_eq_none.mp h i hi
    simp at this
  | some j =>
    rw [hsame, h]
    simp [representative_eq, h]

theorem mem_targets_realsFrom {N : Automaton} {ids : List Nat} {e : Edge}
    (he : e ∈ N.realsFrom ids) : e.source ∈ ids ∧ e.target ∈ N.targets e.source := by
  obtain ⟨i, hi, he⟩ := List.mem_flatMap.mp he
  obtain ⟨f, hf, rfl⟩ := List.mem_map.mp he
  exact ⟨hi, List.mem_append_left _ (List.mem_map_of_mem hf)⟩

theorem mem_targets_epsilonsFrom {N : Automaton} {ids : List Nat} {e : Nat × Nat}
    (he : e ∈ N.epsilonsFrom ids) : e.1 ∈ ids ∧ e.2 ∈ N.targets e.1 := by
  obtain ⟨i, hi, he⟩ := List.mem_flatMap.mp he
  obtain ⟨t, ht, rfl⟩ := List.mem_map.mp he
  exact ⟨hi, List.mem_append_right _ ht⟩

/-- After one round only representatives can be reached. -/
theorem reachable_identify {N : Automaton} {i : Nat}
    (hi : i ∈ (N.identify N.reachable (N.representative N.reachable)).reachable) :
    i ∈ N.reachable.filter fun i ↦ N.representative N.reachable i = i := by
  have hkept : ∀ t ∈ N.reachable, N.representative N.reachable t ∈
      N.reachable.filter fun i ↦ N.representative N.reachable i = i := fun t ht ↦
    List.mem_filter.mpr ⟨representative_mem ht, decide_eq_true (representative_representative ht)⟩
  refine search_induction (fun k hk ↦ ?_) (fun k hk t ht ↦ ?_) i hi
  · have hmem := (mem_initial_ofEdges.mp (IdSet.mem_def.mpr hk)).1
    obtain ⟨j, hj, rfl⟩ := List.mem_map.mp hmem
    exact hkept j (mem_reachable_of_mem_initial hj)
  · rcases mem_targets_ofEdges ht with ⟨e, he, hsource, htarget⟩ | he
    · obtain ⟨f, hf, rfl⟩ := List.mem_map.mp he
      have hfrom := mem_targets_realsFrom hf
      exact htarget ▸ hkept _
        (mem_reachable_of_mem_targets (List.mem_filter.mp hfrom.1).1 hfrom.2)
    · obtain ⟨f, hf, heq⟩ := List.mem_map.mp he
      have hfrom := mem_targets_epsilonsFrom hf
      have ht : N.representative N.reachable f.2 = t := congrArg Prod.snd heq
      exact ht ▸ hkept _
        (mem_reachable_of_mem_targets (List.mem_filter.mp hfrom.1).1 hfrom.2)

theorem size_mergeRound_lt {N M : Automaton} (h : N.mergeRound? = some M) :
    M.size < N.reachable.length := by
  unfold mergeRound? at h
  dsimp only at h
  split at h
  · exact absurd h (by simp)
  · rename_i hall
    obtain rfl := Option.some.inj h
    rw [size_compact]
    refine Nat.lt_of_le_of_lt
      ((nodup_reachable _).length_le_of_subset fun i hi ↦ reachable_identify hi) ?_
    refine Nat.lt_of_le_of_ne (List.length_filter_le _ _) fun heq ↦ hall ?_
    have := List.length_filter_eq_length_iff.mp heq
    exact List.all_eq_true.mpr this

theorem size_mergeRound_lt_size {N M : Automaton} (h : N.mergeRound? = some M) : M.size < N.size :=
  Nat.lt_of_lt_of_le (size_mergeRound_lt h) (length_reachable_le N)

/-- Merges until no two reachable states have the same signature; also whether anything was
merged. -/
def collapse (N : Automaton) : Automaton × Bool :=
  match _h : N.mergeRound? with
  | none => (N, false)
  | some M => (M.collapse.1, true)
termination_by N.size
decreasing_by exact size_mergeRound_lt_size ‹_›

theorem size_collapse (N : Automaton) :
    N.collapse.1.size ≤ N.size ∧ (N.collapse.2 = true → N.collapse.1.size < N.size) := by
  fun_induction collapse N with
  | case1 N h => exact ⟨Nat.le_refl _, fun h ↦ absurd h (by simp)⟩
  | case2 N M h ih =>
    have hlt := Nat.lt_of_le_of_lt ih.1 (size_mergeRound_lt_size h)
    exact ⟨Nat.le_of_lt hlt, fun _ ↦ hlt⟩

theorem size_collapse_reverse_lt {N : Automaton}
    (h : (N.collapse.2 || N.collapse.1.reverse.collapse.2) = true) :
    N.collapse.1.reverse.collapse.1.reverse.size < N.size := by
  have hforward := size_collapse N
  have hbackward := size_collapse N.collapse.1.reverse
  have hfirst := size_reverse_le N.collapse.1
  have hsecond := size_reverse_le N.collapse.1.reverse.collapse.1
  rcases Bool.or_eq_true_iff.mp h with h | h
  · have := hforward.2 h
    omega
  · have := hbackward.2 h
    omega

/-- Merges forwards and backwards in turn until neither direction merges anything. -/
def minimize (N : Automaton) : Automaton :=
  let forward := N.collapse
  let backward := forward.1.reverse.collapse
  if forward.2 || backward.2 then backward.1.reverse.minimize else backward.1.reverse
termination_by N.size
decreasing_by exact size_collapse_reverse_lt ‹_›

end SignalRegex.Automaton
