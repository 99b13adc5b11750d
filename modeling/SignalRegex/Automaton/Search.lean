/-!
Breadth-first search in a finite graph.

The search goes through a queue and keeps the list of vertices not seen yet. Every step lists the
head of the queue and moves its unseen successors from that list to the end of the queue, so the
number of vertices that are queued or unseen falls. The vertices listed are listed once
(`nodup_search`), they are closed under successors (`mem_search_of_mem_next`), and whatever holds of
the roots and passes to successors holds of all of them (`search_induction`).
-/

set_option autoImplicit false

namespace SignalRegex

/-- Takes the vertices `xs` out of the unseen ones: those that were there, in the order of their
first mention, and the ones left. -/
def takeUnseen (unseen : List Nat) : List Nat → List Nat × List Nat
  | [] => ([], unseen)
  | x :: xs =>
    if x ∈ unseen then
      (x :: (takeUnseen (unseen.erase x) xs).1, (takeUnseen (unseen.erase x) xs).2)
    else takeUnseen unseen xs

theorem takeUnseen_perm (unseen xs : List Nat) :
    ((takeUnseen unseen xs).1 ++ (takeUnseen unseen xs).2).Perm unseen := by
  induction xs generalizing unseen with
  | nil => exact .refl _
  | cons x xs ih =>
    unfold takeUnseen
    split
    · rename_i hx
      exact ((ih (unseen.erase x)).cons x).trans (List.perm_cons_erase hx).symm
    · exact ih unseen

theorem length_takeUnseen (unseen xs : List Nat) :
    (takeUnseen unseen xs).1.length + (takeUnseen unseen xs).2.length = unseen.length := by
  rw [← (takeUnseen_perm unseen xs).length_eq, List.length_append]

theorem mem_of_mem_takeUnseen {unseen xs : List Nat} {y : Nat}
    (h : y ∈ (takeUnseen unseen xs).1) : y ∈ xs := by
  induction xs generalizing unseen with
  | nil => exact absurd h List.not_mem_nil
  | cons x xs ih =>
    unfold takeUnseen at h
    split at h
    · rcases List.mem_cons.mp h with rfl | h
      · exact List.mem_cons_self
      · exact List.mem_cons_of_mem _ (ih h)
    · exact List.mem_cons_of_mem _ (ih h)

theorem mem_takeUnseen {unseen xs : List Nat} {y : Nat} (hxs : y ∈ xs) (hy : y ∈ unseen) :
    y ∈ (takeUnseen unseen xs).1 := by
  induction xs generalizing unseen with
  | nil => exact absurd hxs List.not_mem_nil
  | cons x xs ih =>
    unfold takeUnseen
    by_cases hyx : y = x
    · subst hyx
      rw [if_pos hy]
      exact List.mem_cons_self
    · have hyxs : y ∈ xs := (List.mem_cons.mp hxs).resolve_left hyx
      split
      · exact List.mem_cons_of_mem _ (ih hyxs ((List.mem_erase_of_ne hyx).mpr hy))
      · exact ih hyxs hy

/-- Lists the queue and all that follows from it, given the vertices not seen so far. -/
def searchFrom (next : Nat → List Nat) (unseen queue : List Nat) : List Nat :=
  match queue with
  | [] => []
  | x :: queue =>
    x :: searchFrom next (takeUnseen unseen (next x)).2 (queue ++ (takeUnseen unseen (next x)).1)
termination_by unseen.length + queue.length
decreasing_by
  have := length_takeUnseen unseen (next x)
  simp only [List.length_append, List.length_cons]
  omega

/-- The vertices below `n` that can be reached from the roots, in breadth-first order. -/
def search (next : Nat → List Nat) (n : Nat) (roots : List Nat) : List Nat :=
  searchFrom next (takeUnseen (List.range n) roots).2 (takeUnseen (List.range n) roots).1

variable {next : Nat → List Nat}

theorem mem_searchFrom_of_mem_queue {unseen queue : List Nat} {x : Nat} (h : x ∈ queue) :
    x ∈ searchFrom next unseen queue := by
  fun_induction searchFrom next unseen queue with
  | case1 => exact absurd h List.not_mem_nil
  | case2 unseen y queue ih =>
    rcases List.mem_cons.mp h with rfl | h
    · exact List.mem_cons_self
    · exact List.mem_cons_of_mem _ (ih (List.mem_append_left _ h))

theorem mem_queue_or_unseen_of_mem_searchFrom {unseen queue : List Nat} {x : Nat}
    (h : x ∈ searchFrom next unseen queue) : x ∈ queue ∨ x ∈ unseen := by
  fun_induction searchFrom next unseen queue with
  | case1 => exact absurd h List.not_mem_nil
  | case2 unseen y queue ih =>
    rcases List.mem_cons.mp h with rfl | h
    · exact .inl List.mem_cons_self
    · have hperm := takeUnseen_perm unseen (next y)
      rcases ih h with h | h
      · rcases List.mem_append.mp h with h | h
        · exact .inl (List.mem_cons_of_mem _ h)
        · exact .inr (hperm.mem_iff.mp (List.mem_append_left _ h))
      · exact .inr (hperm.mem_iff.mp (List.mem_append_right _ h))

theorem nodup_searchFrom {unseen queue : List Nat} (h : (queue ++ unseen).Nodup) :
    (searchFrom next unseen queue).Nodup := by
  fun_induction searchFrom next unseen queue with
  | case1 => exact .nil
  | case2 unseen y queue ih =>
    have hperm := takeUnseen_perm unseen (next y)
    have hy : y ∉ queue ++ unseen ∧ (queue ++ unseen).Nodup :=
      List.nodup_cons.mp (by rwa [List.cons_append] at h)
    refine List.nodup_cons.mpr ⟨fun hmem ↦ hy.1 ?_, ih ?_⟩
    · rw [List.mem_append]
      rcases mem_queue_or_unseen_of_mem_searchFrom hmem with hmem | hmem
      · rcases List.mem_append.mp hmem with hmem | hmem
        · exact .inl hmem
        · exact .inr (hperm.mem_iff.mp (List.mem_append_left _ hmem))
      · exact .inr (hperm.mem_iff.mp (List.mem_append_right _ hmem))
    · rw [List.append_assoc]
      exact ((hperm.append_left queue).nodup_iff).mpr hy.2

theorem mem_searchFrom_of_mem_next {unseen queue : List Nat} {x y : Nat}
    (hx : x ∈ searchFrom next unseen queue) (hy : y ∈ next x) (huniverse : y ∈ queue ∨ y ∈ unseen) :
    y ∈ searchFrom next unseen queue := by
  fun_induction searchFrom next unseen queue with
  | case1 => exact absurd hx List.not_mem_nil
  | case2 unseen z queue ih =>
    rcases huniverse with hqueue | hunseen
    · rcases List.mem_cons.mp hqueue with rfl | hqueue
      · exact List.mem_cons_self
      · exact List.mem_cons_of_mem _
          (mem_searchFrom_of_mem_queue (List.mem_append_left _ hqueue))
    · refine List.mem_cons_of_mem _ ?_
      rcases List.mem_cons.mp hx with rfl | hx
      · exact mem_searchFrom_of_mem_queue
          (List.mem_append_right _ (mem_takeUnseen hy hunseen))
      · refine ih hx ?_
        rcases List.mem_append.mp
          ((takeUnseen_perm unseen (next z)).mem_iff.mpr hunseen) with hmem | hmem
        · exact .inl (List.mem_append_right _ hmem)
        · exact .inr hmem

theorem searchFrom_induction {P : Nat → Prop} {unseen queue : List Nat}
    (hqueue : ∀ x ∈ queue, P x) (hnext : ∀ x, P x → ∀ y ∈ next x, P y) :
    ∀ x ∈ searchFrom next unseen queue, P x := by
  fun_induction searchFrom next unseen queue with
  | case1 => exact fun x hx ↦ absurd hx List.not_mem_nil
  | case2 unseen z queue ih =>
    have hz := hqueue z List.mem_cons_self
    intro x hx
    rcases List.mem_cons.mp hx with rfl | hx
    · exact hz
    · refine ih (fun y hy ↦ ?_) x hx
      rcases List.mem_append.mp hy with hy | hy
      · exact hqueue y (List.mem_cons_of_mem _ hy)
      · exact hnext z hz y (mem_of_mem_takeUnseen hy)

theorem lt_of_mem_search {n x : Nat} {roots : List Nat} (h : x ∈ search next n roots) : x < n := by
  have hperm := takeUnseen_perm (List.range n) roots
  refine List.mem_range.mp (hperm.mem_iff.mp (List.mem_append.mpr ?_))
  exact mem_queue_or_unseen_of_mem_searchFrom h

theorem nodup_search (next : Nat → List Nat) (n : Nat) (roots : List Nat) :
    (search next n roots).Nodup :=
  nodup_searchFrom ((takeUnseen_perm (List.range n) roots).nodup_iff.mpr List.nodup_range)

theorem mem_search_of_mem_roots {n x : Nat} {roots : List Nat} (hx : x ∈ roots) (hn : x < n) :
    x ∈ search next n roots :=
  mem_searchFrom_of_mem_queue (mem_takeUnseen hx (List.mem_range.mpr hn))

theorem mem_search_of_mem_next {n x y : Nat} {roots : List Nat}
    (hx : x ∈ search next n roots) (hy : y ∈ next x) (hn : y < n) : y ∈ search next n roots := by
  refine mem_searchFrom_of_mem_next hx hy ?_
  have hperm := takeUnseen_perm (List.range n) roots
  exact List.mem_append.mp (hperm.mem_iff.mpr (List.mem_range.mpr hn))

theorem search_induction {P : Nat → Prop} {n : Nat} {roots : List Nat}
    (hroots : ∀ x ∈ roots, P x) (hnext : ∀ x, P x → ∀ y ∈ next x, P y) :
    ∀ x ∈ search next n roots, P x :=
  searchFrom_induction (fun x hx ↦ hroots x (mem_of_mem_takeUnseen hx)) hnext

theorem length_search_le (next : Nat → List Nat) (n : Nat) (roots : List Nat) :
    (search next n roots).length ≤ n := by
  have hrange : search next n roots ⊆ List.range n :=
    fun _ hx ↦ List.mem_range.mpr (lt_of_mem_search hx)
  have h := (nodup_search next n roots).length_le_of_subset hrange
  rwa [List.length_range] at h

end SignalRegex
