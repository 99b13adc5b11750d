import SignalRegex.CharSet.Basic

/-!
The labelled edges of one state: for every target one set of code points, canonical and not empty,
with the targets in increasing order.
-/

set_option autoImplicit false

namespace SignalRegex

/-- The labelled edges of a state, by target. -/
structure EdgeMap where
  toList : List (Nat × CharSet)
  increasing : toList.Pairwise fun e f ↦ e.1 < f.1
  labels : ∀ e ∈ toList, e.2.IsCanonical ∧ e.2.ranges ≠ []
deriving DecidableEq

namespace EdgeMap

def empty : EdgeMap :=
  ⟨[], .nil, fun _ h ↦ absurd h List.not_mem_nil⟩

/-- The targets in increasing order. -/
def targets (m : EdgeMap) : List Nat :=
  m.toList.map (·.1)

/-- Joins a label to the edge with the given target, or puts a new edge into its place. -/
def place (target : Nat) (label : CharSet) : List (Nat × CharSet) → List (Nat × CharSet)
  | [] => [(target, label.canonical)]
  | (t, old) :: rest =>
    if target < t then (target, label.canonical) :: (t, old) :: rest
    else if target = t then (t, old.union label) :: rest
    else (t, old) :: place target label rest

theorem fst_of_mem_place {target : Nat} {label : CharSet} {l : List (Nat × CharSet)}
    {e : Nat × CharSet} (he : e ∈ place target label l) : e.1 = target ∨ ∃ f ∈ l, f.1 = e.1 := by
  induction l with
  | nil =>
    simp only [place, List.mem_singleton] at he
    exact .inl (by rw [he])
  | cons f rest ih =>
    unfold place at he
    split at he
    · rcases List.mem_cons.mp he with rfl | he
      · exact .inl rfl
      · exact .inr ⟨e, he, rfl⟩
    · split at he
      · rcases List.mem_cons.mp he with rfl | he
        · exact .inr ⟨f, List.mem_cons_self, rfl⟩
        · exact .inr ⟨e, List.mem_cons_of_mem _ he, rfl⟩
      · rcases List.mem_cons.mp he with rfl | he
        · exact .inr ⟨f, List.mem_cons_self, rfl⟩
        · rcases ih he with h | ⟨g, hg, h⟩
          · exact .inl h
          · exact .inr ⟨g, List.mem_cons_of_mem _ hg, h⟩

theorem increasing_place {target : Nat} {label : CharSet} {l : List (Nat × CharSet)}
    (h : l.Pairwise fun e f ↦ e.1 < f.1) :
    (place target label l).Pairwise fun e f ↦ e.1 < f.1 := by
  induction l with
  | nil => exact List.pairwise_singleton _ _
  | cons g rest ih =>
    have hg := List.pairwise_cons.mp h
    unfold place
    split
    · rename_i hlt
      refine List.Pairwise.cons (fun e he ↦ ?_) h
      rcases List.mem_cons.mp he with rfl | he
      · exact hlt
      · exact Nat.lt_trans hlt (hg.1 e he)
    · split
      · exact List.Pairwise.cons (fun e he ↦ hg.1 e he) hg.2
      · refine List.Pairwise.cons (fun e he ↦ ?_) (ih hg.2)
        rcases fst_of_mem_place he with heq | ⟨f, hf, heq⟩
        · omega
        · exact heq ▸ hg.1 f hf

theorem labels_place {target : Nat} {label : CharSet} {l : List (Nat × CharSet)}
    (hlabel : label.ranges ≠ []) (h : ∀ e ∈ l, e.2.IsCanonical ∧ e.2.ranges ≠ []) :
    ∀ e ∈ place target label l, e.2.IsCanonical ∧ e.2.ranges ≠ [] := by
  have hnew : label.canonical.IsCanonical ∧ label.canonical.ranges ≠ [] :=
    ⟨CharSet.isCanonical_canonical _, CharSet.ranges_canonical_ne_nil hlabel⟩
  induction l with
  | nil =>
    intro e he
    simp only [place, List.mem_singleton] at he
    exact he ▸ hnew
  | cons f rest ih =>
    intro e he
    have hf := h f List.mem_cons_self
    have hrest := fun g hg ↦ h g (List.mem_cons_of_mem f hg)
    unfold place at he
    split at he
    · rcases List.mem_cons.mp he with rfl | he
      · exact hnew
      · exact h e he
    · split at he
      · rcases List.mem_cons.mp he with rfl | he
        · exact ⟨CharSet.isCanonical_union _ _, CharSet.ranges_union_ne_nil hf.2⟩
        · exact hrest e he
      · rcases List.mem_cons.mp he with rfl | he
        · exact hf
        · exact ih hrest e he

/-- Adds the code points of `label` to the edge with the given target; a label without ranges adds
nothing. -/
def add (m : EdgeMap) (target : Nat) (label : CharSet) : EdgeMap :=
  if h : label.ranges = [] then m
  else ⟨place target label m.toList, increasing_place m.increasing, labels_place h m.labels⟩

theorem mem_targets_add {m : EdgeMap} {target t : Nat} {label : CharSet}
    (h : t ∈ (m.add target label).targets) : t = target ∨ t ∈ m.targets := by
  unfold add at h
  split at h
  · exact .inr h
  · obtain ⟨e, he, rfl⟩ := List.mem_map.mp h
    rcases fst_of_mem_place he with heq | ⟨f, hf, heq⟩
    · exact .inl heq
    · exact .inr (heq ▸ List.mem_map_of_mem hf)

end EdgeMap

end SignalRegex
