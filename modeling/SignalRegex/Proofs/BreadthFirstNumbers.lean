import SignalRegex.Proofs.EpsilonRemoval
import SignalRegex.Proofs.MergeFixedPoints

/-!
Automata are numbered in breadth-first order (`reachable_compact`), and numbering them again changes
nothing (`compact_eq_self`).

A second search visits the neighbours of a state in the order of their new numbers, and not in the
order in which the first one visited them. It still finds the states in the order of the new
numbers, because what the first search found new at a state got the next numbers: among the
neighbours of one kind these are the greatest, and they follow on from each other
(`takeUnseen_renumbered`).
-/

set_option autoImplicit false

namespace SignalRegex

/-! ### Searching a renumbered graph -/

/-- The second list has the new numbers of the members of the first, in increasing order. -/
structure Renumbered (f : Nat → Nat) (xs ys : List Nat) : Prop where
  increasing : ys.Pairwise (· < ·)
  mem_iff : ∀ k, k ∈ ys ↔ ∃ x ∈ xs, f x = k

theorem takeUnseen_append (unseen xs ys : List Nat) : takeUnseen unseen (xs ++ ys) =
    ((takeUnseen unseen xs).1 ++ (takeUnseen (takeUnseen unseen xs).2 ys).1,
      (takeUnseen (takeUnseen unseen xs).2 ys).2) := by
  induction xs generalizing unseen with
  | nil => rfl
  | cons x xs ih =>
    rw [List.cons_append, takeUnseen, takeUnseen]
    split_ifs with hx
    · rw [ih]
      rfl
    · exact ih unseen

/-- From an increasing list the unseen numbers are taken in order. -/
theorem takeUnseen_range' {xs : List Nat} (hxs : xs.Pairwise (· < ·)) {start count fresh : Nat}
    (hfresh : fresh ≤ count)
    (hmem : ∀ k, start ≤ k → k < start + count → (k ∈ xs ↔ k < start + fresh)) :
    takeUnseen (List.range' start count) xs =
      (List.range' start fresh, List.range' (start + fresh) (count - fresh)) := by
  induction xs generalizing start count fresh with
  | nil =>
    have hzero : fresh = 0 := by
      by_contra hne
      exact absurd ((hmem start (by omega) (by omega)).mpr (by omega)) List.not_mem_nil
    subst hzero
    rfl
  | cons x xs ih =>
    obtain ⟨hx, htail⟩ := List.pairwise_cons.mp hxs
    rw [takeUnseen]
    split_ifs with hin
    · rw [List.mem_range'_1] at hin
      have hlt : x < start + fresh := (hmem x hin.1 hin.2).mp List.mem_cons_self
      -- nothing before `x` is on the list, so `x` is the first number that is unseen
      have hstart : start = x := by
        have hfirst := (hmem start (Nat.le_refl _) (by omega)).mpr (by omega)
        refine (List.mem_cons.mp hfirst).resolve_right fun hrest ↦ ?_
        have hbelow := hx start hrest
        omega
      subst hstart
      obtain ⟨count, rfl⟩ : ∃ c, count = c + 1 := ⟨count - 1, by omega⟩
      obtain ⟨fresh, rfl⟩ : ∃ f, fresh = f + 1 := ⟨fresh - 1, by omega⟩
      have hrest : takeUnseen (List.range' (start + 1) count) xs =
          (List.range' (start + 1) fresh, List.range' (start + 1 + fresh) (count - fresh)) := by
        refine ih htail (by omega) fun k hk hk' ↦ ?_
        have hne : k ≠ start := by omega
        have hiff := hmem k (by omega) (by omega)
        rw [List.mem_cons, or_iff_right hne] at hiff
        exact hiff.trans (by omega)
      rw [List.range'_succ, List.erase_cons_head, hrest, List.range'_succ]
      simp only [Prod.mk.injEq, true_and]
      congr 1 <;> omega
    · refine ih htail hfresh fun k hk hk' ↦ ?_
      rw [← hmem k hk hk', List.mem_cons]
      refine (or_iff_right ?_).symm
      rintro rfl
      exact hin (List.mem_range'_1.mpr ⟨hk, hk'⟩)

/-- The numbers that `fresh` gets when it is listed behind `seen`. -/
def numbersOf (seen fresh : List Nat) : List Nat :=
  List.range' seen.length fresh.length

/-- The numbers of what an order lists behind `seen`. -/
def numbersLeft (order seen : List Nat) : List Nat :=
  List.range' seen.length (order.length - seen.length)

section Renumbered

variable {order seen later unseen xs ys : List Nat}

theorem numbersOf_append (seen xs ys : List Nat) :
    numbersOf seen (xs ++ ys) = numbersOf seen xs ++ numbersOf (seen ++ xs) ys := by
  rw [numbersOf, numbersOf, numbersOf, List.length_append, List.length_append, List.range'_append_1]

theorem numbersOf_cons (seen xs : List Nat) (x : Nat) :
    numbersOf seen (x :: xs) = seen.length :: numbersOf (seen ++ [x]) xs := by
  rw [numbersOf, numbersOf, List.length_cons, List.range'_succ, List.length_append,
    List.length_singleton]

theorem numbersLeft_cons {x : Nat} (h : order = seen ++ x :: later) :
    numbersLeft order seen = seen.length :: numbersLeft order (seen ++ [x]) := by
  have hcount : order.length - seen.length = later.length + 1 := by
    rw [h, List.length_append, List.length_cons, Nat.add_sub_cancel_left]
  rw [numbersLeft, numbersLeft, hcount, List.range'_succ, List.length_append,
    List.length_singleton, ← Nat.sub_sub, hcount, Nat.add_sub_cancel]

theorem numbersLeft_self (order : List Nat) : numbersLeft order order = [] := by
  rw [numbersLeft, Nat.sub_self]
  rfl

/-- What is taken from the successors of a vertex comes next in the order, so it is taken in the
same way under the new numbers. -/
theorem takeUnseen_renumbered (hnodup : order.Nodup)
    (horder : order = seen ++ ((takeUnseen unseen xs).1 ++ later))
    (huniverse : ∀ x ∈ xs, x ∈ seen ∨ x ∈ unseen) (h : Renumbered order.idxOf xs ys) :
    takeUnseen (numbersLeft order seen) ys =
      (numbersOf seen (takeUnseen unseen xs).1,
        numbersLeft order (seen ++ (takeUnseen unseen xs).1)) := by
  have hlength : order.length = seen.length + ((takeUnseen unseen xs).1.length + later.length) := by
    rw [horder, List.length_append, List.length_append]
  rw [numbersLeft, numbersLeft, numbersOf, List.length_append, ← Nat.sub_sub]
  refine takeUnseen_range' h.increasing (by omega) fun k hk hk' ↦ ?_
  rw [h.mem_iff]
  constructor
  · rintro ⟨x, hx, rfl⟩
    have hnew : x ∉ seen := by
      intro hseen
      rw [horder, List.idxOf_append_of_mem hseen] at hk
      exact absurd (List.idxOf_lt_length_iff.mpr hseen) (Nat.not_lt.mpr hk)
    have htaken := mem_takeUnseen hx ((huniverse x hx).resolve_left hnew)
    rw [horder, List.idxOf_append_of_notMem hnew, List.idxOf_append_of_mem htaken]
    exact Nat.add_lt_add_left (List.idxOf_lt_length_iff.mpr htaken) _
  · intro hlt
    have hplace : k < order.length := by omega
    have htaken : order[k] ∈ (takeUnseen unseen xs).1 := by
      simp only [horder]
      rw [List.getElem_append_right hk, List.getElem_append_left (by omega)]
      exact List.getElem_mem _
    exact ⟨order[k], mem_of_mem_takeUnseen htaken, hnodup.idxOf_getElem k hplace⟩

theorem mem_takeUnseen_or {y : Nat} (xs : List Nat) (h : y ∈ unseen) :
    y ∈ (takeUnseen unseen xs).1 ∨ y ∈ (takeUnseen unseen xs).2 :=
  List.mem_append.mp ((takeUnseen_perm unseen xs).mem_iff.mpr h)

/-- The same for successors of two kinds, of which the second kind comes behind the first. -/
theorem takeUnseen_renumbered_append {xs' ys' : List Nat} (hnodup : order.Nodup)
    (horder : order = seen ++ ((takeUnseen unseen (xs ++ xs')).1 ++ later))
    (huniverse : ∀ x ∈ xs ++ xs', x ∈ seen ∨ x ∈ unseen) (h : Renumbered order.idxOf xs ys)
    (h' : Renumbered order.idxOf xs' ys') :
    takeUnseen (numbersLeft order seen) (ys ++ ys') =
      (numbersOf seen (takeUnseen unseen (xs ++ xs')).1,
        numbersLeft order (seen ++ (takeUnseen unseen (xs ++ xs')).1)) := by
  rw [takeUnseen_append unseen] at horder ⊢
  dsimp only at horder ⊢
  rw [List.append_assoc] at horder
  have hfirst := takeUnseen_renumbered hnodup horder
    (fun x hx ↦ huniverse x (List.mem_append_left _ hx)) h
  rw [← List.append_assoc] at horder
  have hsecond := takeUnseen_renumbered hnodup horder (fun x hx ↦ ?_) h'
  · rw [takeUnseen_append, hfirst]
    dsimp only
    rw [hsecond, numbersOf_append, List.append_assoc]
  · rcases huniverse x (List.mem_append_right _ hx) with hseen | hunseen
    · exact Or.inl (List.mem_append_left _ hseen)
    · exact (mem_takeUnseen_or xs hunseen).imp_left (List.mem_append_right _)

/-- The search lists its queue first. -/
theorem exists_searchFrom_eq_append (next : Nat → List Nat) (unseen queue : List Nat) :
    ∃ later, searchFrom next unseen queue = queue ++ later := by
  fun_induction searchFrom next unseen queue with
  | case1 => exact ⟨[], rfl⟩
  | case2 unseen x queue ih =>
    obtain ⟨later, hlater⟩ := ih
    exact ⟨(takeUnseen unseen (next x)).1 ++ later, by rw [hlater, List.append_assoc]; rfl⟩

variable {real slide real' slide' : Nat → List Nat} {n : Nat}

/-- A search goes through the new numbers one after the other. The invariant is that what was seen
is where the order starts, so it has the first numbers, and that everything else is unseen. -/
theorem searchFrom_renumbered {listed queue : List Nat} (hnodup : order.Nodup)
    (hreal : ∀ x ∈ order, Renumbered order.idxOf (real x) (real' (order.idxOf x)))
    (hslide : ∀ x ∈ order, Renumbered order.idxOf (slide x) (slide' (order.idxOf x)))
    (hbound : ∀ x, ∀ y ∈ real x ++ slide x, y < n)
    (horder : order = listed ++ searchFrom (fun x ↦ real x ++ slide x) unseen queue)
    (huniverse : ∀ y < n, y ∈ listed ++ queue ∨ y ∈ unseen) :
    searchFrom (fun x ↦ real' x ++ slide' x) (numbersLeft order (listed ++ queue))
      (numbersOf listed queue) = numbersLeft order listed := by
  fun_induction searchFrom (fun x ↦ real x ++ slide x) unseen queue generalizing listed with
  | case1 unseen =>
    rw [List.append_nil] at horder
    rw [horder, numbersLeft_self]
    exact searchFrom.eq_1 ..
  | case2 unseen x queue ih =>
    obtain ⟨later, hlater⟩ := exists_searchFrom_eq_append (fun x ↦ real x ++ slide x)
      (takeUnseen unseen (real x ++ slide x)).2
      (queue ++ (takeUnseen unseen (real x ++ slide x)).1)
    have hx : x ∈ order := by
      rw [horder]
      exact List.mem_append_right _ List.mem_cons_self
    have hnumber : order.idxOf x = listed.length := by
      have hnot : x ∉ listed := fun hlisted ↦
        (List.nodup_append.mp (horder ▸ hnodup)).2.2 x hlisted x List.mem_cons_self rfl
      rw [horder, List.idxOf_append_of_notMem hnot, List.idxOf_cons_self, Nat.add_zero]
    have hsplit : order = (listed ++ x :: queue) ++
        ((takeUnseen unseen (real x ++ slide x)).1 ++ later) := by
      rw [horder, hlater]
      simp
    have hstep := takeUnseen_renumbered_append hnodup hsplit
      (fun y hy ↦ huniverse y (hbound x y hy)) (hreal x hx) (hslide x hx)
    rw [hnumber] at hstep
    have hnext : order = (listed ++ [x]) ++ searchFrom (fun x ↦ real x ++ slide x)
        (takeUnseen unseen (real x ++ slide x)).2
        (queue ++ (takeUnseen unseen (real x ++ slide x)).1) := by
      rw [horder]
      simp
    have hrest := ih hnext fun y hy ↦ ?_
    · rw [numbersLeft_cons horder, ← hrest, numbersOf_cons, searchFrom, hstep, numbersOf_append]
      simp
    · rcases huniverse y hy with hseen | hunseen
      · left
        simp only [List.mem_append, List.mem_cons] at hseen ⊢
        tauto
      · refine (mem_takeUnseen_or (real x ++ slide x) hunseen).imp_left fun htaken ↦ ?_
        exact List.mem_append_right _ (List.mem_append_right _ htaken)

/-- A graph whose vertices are renumbered in breadth-first order is searched in the order of the new
numbers. -/
theorem search_renumbered {roots roots' : List Nat}
    (horder : order = search (fun x ↦ real x ++ slide x) n roots)
    (hroots : Renumbered order.idxOf roots roots')
    (hreal : ∀ x ∈ order, Renumbered order.idxOf (real x) (real' (order.idxOf x)))
    (hslide : ∀ x ∈ order, Renumbered order.idxOf (slide x) (slide' (order.idxOf x)))
    (hrootsBound : ∀ x ∈ roots, x < n) (hbound : ∀ x, ∀ y ∈ real x ++ slide x, y < n) :
    search (fun x ↦ real' x ++ slide' x) order.length roots' = List.range order.length := by
  have hnodup : order.Nodup := horder ▸ nodup_search ..
  have hall : List.range order.length = numbersLeft order [] := List.range_eq_range'
  obtain ⟨later, hlater⟩ := exists_searchFrom_eq_append (fun x ↦ real x ++ slide x)
    (takeUnseen (List.range n) roots).2 (takeUnseen (List.range n) roots).1
  have hsplit : order = [] ++ ((takeUnseen (List.range n) roots).1 ++ later) := by
    rw [horder, search, hlater]
    rfl
  have hstart := takeUnseen_renumbered hnodup hsplit
    (fun x hx ↦ Or.inr (List.mem_range.mpr (hrootsBound x hx))) hroots
  rw [search, hall, hstart]
  refine searchFrom_renumbered hnodup hreal hslide hbound horder fun y hy ↦ ?_
  exact mem_takeUnseen_or roots (List.mem_range.mpr hy)

end Renumbered

namespace Automaton

variable {N M : Automaton} {f : Nat → Nat} {i : Nat}

/-! ### Numbers in breadth-first order -/

theorem Renaming.renumbered_initial (h : Renaming N M f) :
    Renumbered f N.initial.toList M.initial.toList :=
  ⟨M.initial.increasing, h.initial⟩

theorem Renaming.renumbered_real (h : Renaming N M f) (hi : i ∈ N.reachable) :
    Renumbered f (N.state i).real.targets (M.state (f i)).real.targets := by
  refine ⟨EdgeMap.increasing_targets _, fun k ↦ ?_⟩
  simp only [EdgeMap.mem_targets_iff]
  constructor
  · rintro ⟨cp, hread⟩
    obtain ⟨j, hj, hk⟩ := (h.reads i hi cp k).mp hread
    exact ⟨j, ⟨cp, hj⟩, hk⟩
  · rintro ⟨j, ⟨cp, hj⟩, hk⟩
    exact ⟨cp, (h.reads i hi cp k).mpr ⟨j, hj, hk⟩⟩

theorem Renaming.renumbered_epsilon (h : Renaming N M f) (hi : i ∈ N.reachable) :
    Renumbered f (N.state i).epsilon.toList (M.state (f i)).epsilon.toList :=
  ⟨(M.state (f i)).epsilon.increasing, h.slides i hi⟩

theorem reachable_compact (N : Automaton) : N.compact.reachable = List.range N.compact.size := by
  have hnames := renaming_compact N
  have horder : N.reachable = search (fun i ↦ (N.state i).real.targets ++
      (N.state i).epsilon.toList) N.size N.initial.toList := rfl
  rw [reachable, size_compact]
  exact search_renumbered horder hnames.renumbered_initial
    (fun _ ↦ hnames.renumbered_real) (fun _ ↦ hnames.renumbered_epsilon) N.initial_lt
    fun _ _ ↦ lt_of_mem_targets

/-- Where all states can be reached and keep their names, the automaton stays the same. -/
theorem Renaming.eq_self (h : Renaming N M f) (hsize : M.size = N.size)
    (hreach : ∀ i < N.size, i ∈ N.reachable) (hsame : ∀ i < N.size, f i = i) : M = N := by
  have hnew : ∀ {P : Nat → Prop}, (∀ j, P j → j < N.size) → ∀ k, (∃ j, P j ∧ f j = k) ↔ P k := by
    intro P hlt k
    constructor
    · rintro ⟨j, hj, rfl⟩
      rwa [hsame j (hlt j hj)]
    · intro hk
      exact ⟨k, hk, hsame k (hlt k hk)⟩
  refine eq_of_edges_iff hsize (fun i cp j ↦ ?_) (fun i j ↦ ?_) (fun i ↦ ?_) fun i ↦ ?_
  · by_cases hi : i < N.size
    · have hedges := h.reads i (hreach i hi) cp j
      rw [hsame i hi] at hedges
      exact hedges.trans (hnew (fun _ hread ↦ hread.lt.2) j)
    · exact iff_of_false (fun hread ↦ hi (hsize ▸ hread.lt.1)) fun hread ↦ hi hread.lt.1
  · by_cases hi : i < N.size
    · have hedges := h.slides i (hreach i hi) j
      rw [hsame i hi] at hedges
      exact hedges.trans (hnew (fun _ hslide ↦ hslide.lt.2) j)
    · exact iff_of_false (fun hslide ↦ hi (hsize ▸ hslide.lt.1)) fun hslide ↦ hi hslide.lt.1
  · exact (h.initial i).trans (hnew N.initial_lt i)
  · by_cases hi : i < N.size
    · have hmark := h.finals i (hreach i hi)
      rwa [hsame i hi] at hmark
    · exact iff_of_false (fun hf ↦ hi (hsize ▸ M.finals_lt i hf)) fun hf ↦ hi (N.finals_lt i hf)

/-- An automaton whose states are found in the order of their numbers is not renumbered. -/
theorem compact_eq_self (h : N.reachable = List.range N.size) : N.compact = N := by
  refine (renaming_compact N).eq_self ?_ ?_ ?_
  · rw [size_compact, h, List.length_range]
  · intro i hi
    exact h ▸ List.mem_range.mpr hi
  · intro i hi
    have hplace : i < (List.range N.size).length := by rwa [List.length_range]
    have hnumber := List.nodup_range.idxOf_getElem i hplace
    rwa [List.getElem_range, ← h] at hnumber

/-- The states are numbered in the order in which breadth-first search finds them, and nothing is
stored beside them: renumbering changes nothing, edges and marks name states, and labels are in
canonical form and not empty. -/
structure BreadthFirst (M : Automaton) : Prop where
  order : M.reachable = List.range M.size
  stable : M.compact = M
  targets : ∀ i, ∀ t ∈ M.targets i, t < M.size
  initial : ∀ i ∈ M.initial, i < M.size
  finals : ∀ i ∈ M.finals, i < M.size
  labels : ∀ i, ∀ e ∈ (M.state i).real.toList, e.2.IsCanonical ∧ e.2.ranges ≠ []

theorem breadthFirst_compact (N : Automaton) : N.compact.BreadthFirst where
  order := reachable_compact N
  stable := compact_eq_self (reachable_compact N)
  targets _ _ := lt_of_mem_targets
  initial := N.compact.initial_lt
  finals := N.compact.finals_lt
  labels i := (N.compact.state i).real.labels

theorem breadthFirst_reverse (N : Automaton) : N.reverse.BreadthFirst :=
  breadthFirst_compact N.flip

theorem breadthFirst_minimize (N : Automaton) : N.minimize.BreadthFirst := by
  obtain ⟨M, hM⟩ := exists_minimize_eq_reverse N
  exact hM ▸ breadthFirst_reverse M

theorem breadthFirst_collapse (h : N.collapse.2 = true) : N.collapse.1.BreadthFirst := by
  fun_induction collapse N with
  | case1 N hround => cases h
  | case2 N M hround ih =>
    cases hmerged : M.collapse.2 with
    | true => exact ih hmerged
    | false =>
      obtain rfl := eq_merged_of_mergeRound? hround
      rw [collapse_fst_of_snd_eq_false hmerged]
      exact breadthFirst_compact _

theorem breadthFirst_prune (h : N.prune.2 = true) : N.prune.1.BreadthFirst := by
  unfold prune at h ⊢
  split_ifs at h ⊢ with hnone
  exact breadthFirst_compact _

theorem breadthFirst_withoutEpsilon (N : Automaton) : N.withoutEpsilon.BreadthFirst :=
  breadthFirst_compact N.bypassed

/-- Renumbering keeps the accepted texts and has one state for every state that can be reached, with
the edges between them. Its result is numbered in breadth-first order, and so are the results of the
passes: of those that may find nothing to do, where they report a change. -/
theorem compact_and_passes_breadthFirst (N : Automaton) :
    (∀ w, N.compact.Accepts w ↔ N.Accepts w) ∧
    N.compact.Copies N.reached N.reachable.idxOf ∧ N.compact.size = N.reachable.length ∧
    N.compact.BreadthFirst ∧ N.withoutEpsilon.BreadthFirst ∧ N.reverse.BreadthFirst ∧
    N.minimize.BreadthFirst ∧ (N.collapse.2 = true → N.collapse.1.BreadthFirst) ∧
    (N.prune.2 = true → N.prune.1.BreadthFirst) := by
  refine ⟨fun w ↦ ?_, copies_compact N, size_compact N, breadthFirst_compact N,
    breadthFirst_withoutEpsilon N, breadthFirst_reverse N, breadthFirst_minimize N,
    breadthFirst_collapse, breadthFirst_prune⟩
  rw [accepts_iff_acceptsBy_member, accepts_iff_acceptsBy_member]
  exact acceptsBy_compact

end Automaton

end SignalRegex
