import Mathlib.Order.Lattice.Nat
import SignalRegex.Proofs.SearchLoops

/-!
What the two searches of an automaton find, and in which order.

The queue of a breadth-first search holds vertices of one distance from the roots and then vertices
one edge further, and whatever is unseen is further than some vertex of the queue. So the vertices
are listed in the order of their distances (`Frontier.pairwise_searchFrom`).
-/

set_option autoImplicit false

namespace SignalRegex

variable {edge : Nat → Nat → Prop} {next : Nat → List Nat} {roots unseen queue : List Nat}
  {i j n : Nat}

/-! ### Distances -/

/-- The vertex is reached from one of the roots over `n` edges. -/
inductive ReachedOver (edge : Nat → Nat → Prop) (roots : List Nat) : Nat → Nat → Prop where
  | root {i : Nat} : i ∈ roots → ReachedOver edge roots 0 i
  | edge {n i j : Nat} : ReachedOver edge roots n i → edge i j → ReachedOver edge roots (n + 1) j

/-- The least number of edges over which a vertex is reached from the roots. -/
noncomputable def distance (edge : Nat → Nat → Prop) (roots : List Nat) (i : Nat) : Nat :=
  sInf {n | ReachedOver edge roots n i}

theorem exists_reachedOver_iff :
    (∃ n, ReachedOver edge roots n j) ↔ ∃ i ∈ roots, Relation.ReflTransGen edge i j := by
  constructor
  · rintro ⟨n, h⟩
    induction h with
    | root hi => exact ⟨_, hi, .refl⟩
    | edge _ hedge ih =>
      obtain ⟨i, hi, hpath⟩ := ih
      exact ⟨i, hi, hpath.tail hedge⟩
  · rintro ⟨i, hi, hpath⟩
    induction hpath with
    | refl => exact ⟨0, .root hi⟩
    | tail _ hedge ih =>
      obtain ⟨n, hn⟩ := ih
      exact ⟨n + 1, .edge hn hedge⟩

theorem ReachedOver.isLeast_distance (h : ReachedOver edge roots n i) :
    IsLeast {n | ReachedOver edge roots n i} (distance edge roots i) :=
  ⟨Nat.sInf_mem ⟨n, h⟩, fun _ hm ↦ Nat.sInf_le hm⟩

theorem ReachedOver.distance_le (h : ReachedOver edge roots n i) : distance edge roots i ≤ n :=
  Nat.sInf_le h

theorem ReachedOver.distance_le_succ (h : ReachedOver edge roots n i) (hedge : edge i j) :
    distance edge roots j ≤ distance edge roots i + 1 :=
  (ReachedOver.edge h.isLeast_distance.1 hedge).distance_le

/-! ### The order of the queue -/

section TakeUnseen

variable {xs : List Nat}

theorem mem_unseen_of_taken (h : j ∈ (takeUnseen unseen xs).1) : j ∈ unseen :=
  (takeUnseen_perm unseen xs).mem_iff.mp (List.mem_append_left _ h)

theorem mem_unseen_of_left (h : j ∈ (takeUnseen unseen xs).2) : j ∈ unseen :=
  (takeUnseen_perm unseen xs).mem_iff.mp (List.mem_append_right _ h)

theorem nodup_takeUnseen (h : unseen.Nodup) :
    (takeUnseen unseen xs).2.Nodup ∧
      ∀ j ∈ (takeUnseen unseen xs).1, j ∉ (takeUnseen unseen xs).2 := by
  obtain ⟨_, hleft, hdisjoint⟩ :=
    List.nodup_append.mp ((takeUnseen_perm unseen xs).nodup_iff.mpr h)
  exact ⟨hleft, fun j htaken hj ↦ hdisjoint j htaken j hj rfl⟩

theorem not_mem_left_of_mem (hnodup : unseen.Nodup) (hj : j ∈ xs) :
    j ∉ (takeUnseen unseen xs).2 := by
  intro hleft
  exact (nodup_takeUnseen hnodup).2 j (mem_takeUnseen hj (mem_unseen_of_left hleft)) hleft

end TakeUnseen

/-- What holds in every round of a search with a queue: the queue is sorted by distance and spans at
most two distances, and no edge leads from what was listed to what is unseen. -/
structure Frontier (edge : Nat → Nat → Prop) (roots unseen queue : List Nat) : Prop where
  nodup : unseen.Nodup
  rooted : ∀ i ∈ roots, i ∉ unseen
  closed : ∀ i, i ∉ unseen → i ∉ queue → ∀ j, edge i j → j ∉ unseen
  reached : ∀ i ∈ queue, ∃ n, ReachedOver edge roots n i
  sorted : queue.Pairwise fun i j ↦ distance edge roots i ≤ distance edge roots j
  narrow : ∀ i ∈ queue, ∀ j ∈ queue, distance edge roots j ≤ distance edge roots i + 1

namespace Frontier

/-- The way to an unseen vertex goes through the queue. -/
theorem exists_nearer (h : Frontier edge roots unseen queue) (hreached : ReachedOver edge roots n j)
    (hj : j ∈ unseen) : ∃ i ∈ queue, distance edge roots i < n := by
  induction hreached with
  | root hroot => exact absurd hj (h.rooted _ hroot)
  | @edge n k j hk hedge ih =>
    by_cases hunseen : k ∈ unseen
    · obtain ⟨i, hi, hlt⟩ := ih hunseen
      exact ⟨i, hi, Nat.lt_succ_of_lt hlt⟩
    · by_cases hqueue : k ∈ queue
      · exact ⟨k, hqueue, Nat.lt_succ_of_le hk.distance_le⟩
      · exact absurd hj (h.closed k hunseen hqueue j hedge)

theorem distance_head_le (h : Frontier edge roots unseen (i :: queue)) (hj : j ∈ i :: queue) :
    distance edge roots i ≤ distance edge roots j := by
  rcases List.mem_cons.mp hj with rfl | hj
  · exact Nat.le_refl _
  · exact (List.pairwise_cons.mp h.sorted).1 j hj

section Round

variable (hedge : ∀ i j, edge i j ↔ j ∈ next i) (h : Frontier edge roots unseen (i :: queue))
include hedge h

/-- What is new among the successors of the head is one edge further from the roots. -/
theorem distance_taken (hj : j ∈ (takeUnseen unseen (next i)).1) :
    distance edge roots j = distance edge roots i + 1 := by
  have hij : edge i j := (hedge i j).mpr (mem_of_mem_takeUnseen hj)
  obtain ⟨n, hi⟩ := h.reached i List.mem_cons_self
  have hreached : ReachedOver edge roots (n + 1) j := .edge hi hij
  obtain ⟨k, hk, hlt⟩ := h.exists_nearer hreached.isLeast_distance.1 (mem_unseen_of_taken hj)
  have hhead := h.distance_head_le hk
  have hnear := hi.distance_le_succ hij
  omega

theorem distance_span (hj : j ∈ queue ++ (takeUnseen unseen (next i)).1) :
    distance edge roots i ≤ distance edge roots j ∧
      distance edge roots j ≤ distance edge roots i + 1 := by
  rcases List.mem_append.mp hj with hj | hj
  · have hqueued := List.mem_cons_of_mem i hj
    exact ⟨h.distance_head_le hqueued, h.narrow i List.mem_cons_self j hqueued⟩
  · have hnew := h.distance_taken hedge hj
    omega

theorem round : Frontier edge roots (takeUnseen unseen (next i)).2
    (queue ++ (takeUnseen unseen (next i)).1) where
  nodup := (nodup_takeUnseen h.nodup).1
  rooted k hk hleft := h.rooted k hk (mem_unseen_of_left hleft)
  closed k hunseen hqueue j hj hleft := by
    by_cases hki : k = i
    · subst hki
      exact not_mem_left_of_mem h.nodup ((hedge k j).mp hj) hleft
    · rw [List.mem_append, not_or] at hqueue
      refine h.closed k (fun hk ↦ ?_) (fun hk ↦ ?_) j hj (mem_unseen_of_left hleft)
      · exact (mem_takeUnseen_or (next i) hk).elim hqueue.2 hunseen
      · exact (List.mem_cons.mp hk).elim hki hqueue.1
  reached k hk := by
    rcases List.mem_append.mp hk with hk | hk
    · exact h.reached k (List.mem_cons_of_mem i hk)
    · obtain ⟨n, hi⟩ := h.reached i List.mem_cons_self
      exact ⟨n + 1, .edge hi ((hedge i k).mpr (mem_of_mem_takeUnseen hk))⟩
  sorted := by
    refine List.pairwise_append.mpr ⟨(List.pairwise_cons.mp h.sorted).2, ?_, fun k hk l hl ↦ ?_⟩
    · refine List.pairwise_of_forall_mem_list fun k hk l hl ↦ ?_
      rw [h.distance_taken hedge hk, h.distance_taken hedge hl]
    · rw [h.distance_taken hedge hl]
      exact (h.distance_span hedge (List.mem_append_left _ hk)).2
  narrow k hk l hl := by
    have hlow := (h.distance_span hedge hk).1
    have hhigh := (h.distance_span hedge hl).2
    omega

end Round

/-- The search lists what is in the queue and unseen by distance. -/
theorem pairwise_searchFrom (hedge : ∀ i j, edge i j ↔ j ∈ next i)
    (h : Frontier edge roots unseen queue) :
    (searchFrom next unseen queue).Pairwise
      fun i j ↦ distance edge roots i ≤ distance edge roots j := by
  fun_induction searchFrom next unseen queue with
  | case1 => exact .nil
  | case2 unseen i queue ih =>
    have hrest := ih (h.round hedge)
    refine List.pairwise_cons.mpr ⟨fun k hk ↦ ?_, hrest⟩
    -- the rest starts with the next head of the queue, which is no nearer than this one
    cases hqueue : queue ++ (takeUnseen unseen (next i)).1 with
    | nil =>
      rw [hqueue, searchFrom] at hk
      exact absurd hk List.not_mem_nil
    | cons first later =>
      have hfirst := (h.distance_span hedge (hqueue ▸ List.mem_cons_self)).1
      rw [hqueue, searchFrom] at hk hrest
      rcases List.mem_cons.mp hk with rfl | hk
      · exact hfirst
      · exact hfirst.trans ((List.pairwise_cons.mp hrest).1 k hk)

end Frontier

theorem frontier_start (hnext : ∀ i j, edge i j → i < n) :
    Frontier edge roots (takeUnseen (List.range n) roots).2
      (takeUnseen (List.range n) roots).1 := by
  have hzero : ∀ i ∈ (takeUnseen (List.range n) roots).1, ReachedOver edge roots 0 i :=
    fun i hi ↦ .root (mem_of_mem_takeUnseen hi)
  have hnear : ∀ i ∈ (takeUnseen (List.range n) roots).1, distance edge roots i = 0 :=
    fun i hi ↦ Nat.le_zero.mp (hzero i hi).distance_le
  refine ⟨(nodup_takeUnseen List.nodup_range).1,
    fun i hi ↦ not_mem_left_of_mem List.nodup_range hi, fun i hunseen hqueue j hj ↦ ?_,
    fun i hi ↦ ⟨0, hzero i hi⟩, ?_, fun i hi j hj ↦ ?_⟩
  · exact absurd (mem_takeUnseen_or roots (List.mem_range.mpr (hnext i j hj)))
      (not_or.mpr ⟨hqueue, hunseen⟩)
  · refine List.pairwise_of_forall_mem_list fun i hi j hj ↦ ?_
    rw [hnear i hi, hnear j hj]
  · rw [hnear j hj]
    exact Nat.zero_le _

namespace Automaton

variable {N : Automaton}

/-! ### The searches of an automaton -/

/-- A labelled edge or an epsilon edge leads from `i` to `j`. -/
def Leads (N : Automaton) (i j : Nat) : Prop :=
  (∃ label, (j, label) ∈ (N.state i).real.toList) ∨ N.Slides i j

/-- The least number of edges over which a state is reached from the initial ones. -/
noncomputable def distance (N : Automaton) (i : Nat) : Nat :=
  SignalRegex.distance N.Leads N.initial.toList i

theorem leads_iff : N.Leads i j ↔ j ∈ N.targets i := by
  refine Iff.trans (or_congr_left ?_) List.mem_append.symm
  simp [EdgeMap.targets]

theorem Leads.lt (h : N.Leads i j) : i < N.size ∧ j < N.size := by
  rcases mem_targets_iff.mp (leads_iff.mp h) with ⟨cp, hread⟩ | hslide
  · exact hread.lt
  · exact hslide.lt

theorem mem_reachable_iff_leads :
    j ∈ N.reachable ↔ ∃ i ∈ N.initial, Relation.ReflTransGen N.Leads i j := by
  constructor
  · refine search_induction (P := fun j ↦ ∃ i ∈ N.initial, Relation.ReflTransGen N.Leads i j)
      (fun i hi ↦ ⟨i, hi, .refl⟩) ?_ j
    rintro k ⟨i, hi, hpath⟩ l hl
    exact ⟨i, hi, hpath.tail (leads_iff.mpr hl)⟩
  · rintro ⟨i, hi, hpath⟩
    induction hpath with
    | refl => exact mem_reachable_of_mem_initial hi
    | tail _ hstep ih => exact mem_reachable_of_mem_targets ih (leads_iff.mp hstep)

theorem pairwise_distance_reachable (N : Automaton) :
    N.reachable.Pairwise fun i j ↦ N.distance i ≤ N.distance j :=
  (frontier_start fun _ _ h ↦ h.lt.1).pairwise_searchFrom fun _ _ ↦ leads_iff

theorem isLeast_closure {roots : List Nat} (hroots : ∀ i ∈ roots, i < N.size) :
    IsLeast (closedSets N.Slides roots) {j | j ∈ N.closure roots} := by
  simp only [mem_closure hroots]
  refine ⟨⟨fun i hi ↦ ⟨i, hi, .refl⟩, ?_⟩, ?_⟩
  · rintro k ⟨i, hi, hglide⟩ l hslide
    exact ⟨i, hi, hglide.tail hslide⟩
  · rintro S ⟨hstart, hclosed⟩ j ⟨i, hi, hglide⟩
    induction hglide with
    | refl => exact hstart i hi
    | tail _ hslide ih => exact hclosed _ ih _ hslide

theorem roundsLeft_start (N : Automaton) (roots : List Nat) :
    (StackSearch.start roots).roundsLeft (fun i ↦ (N.state i).epsilon.toList) (N.closure roots) =
      roots.length + (N.epsilonsFrom (N.closure roots).toList).length := by
  have hall : (N.closure roots).toList.filter (· ∉ IdSet.empty) = (N.closure roots).toList :=
    List.filter_eq_self.mpr fun k _ ↦ by simp
  rw [StackSearch.roundsLeft, StackSearch.start, hall, List.length_reverse, epsilonsFrom,
    List.length_flatMap, List.length_flatMap]
  simp only [List.length_map]

/-- The closure of states is what epsilon edges reach from them, which is the least set that has
them and that epsilon edges do not leave. The loop that finds it with a stack stops also on cycles:
it takes a round for each root and each epsilon edge inside. What is reachable is what edges of both
kinds reach from the initial states. The loop that lists it with a queue takes a round for each of
these states, and lists them once and by their distance from the initial ones. -/
theorem closure_and_reachable_exact (N : Automaton) :
    (∀ roots : List Nat, (∀ i ∈ roots, i < N.size) →
      Stops (StackSearch.round fun i ↦ (N.state i).epsilon.toList)
        (roots.length + (N.epsilonsFrom (N.closure roots).toList).length)
        (.start roots) ⟨N.closure roots, []⟩ ∧
      (∀ j, j ∈ N.closure roots ↔ ∃ i ∈ roots, Relation.ReflTransGen N.Slides i j) ∧
      IsLeast (closedSets N.Slides roots) {j | j ∈ N.closure roots}) ∧
    Stops (QueueSearch.round N.targets) N.reachable.length (.start N.initial.toList)
      ⟨N.reachable, .ofList N.reachable, []⟩ ∧
    N.reachable.Nodup ∧
    (∀ j, j ∈ N.reachable ↔ ∃ i ∈ N.initial, Relation.ReflTransGen N.Leads i j) ∧
    (∀ j ∈ N.reachable,
      IsLeast {n | ReachedOver N.Leads N.initial.toList n j} (N.distance j)) ∧
    N.reachable.Pairwise fun i j ↦ N.distance i ≤ N.distance j := by
  refine ⟨fun roots hroots ↦ ⟨?_, fun j ↦ mem_closure hroots, isLeast_closure hroots⟩,
    QueueSearch.stops_start (fun _ _ ↦ lt_of_mem_targets) N.initial_lt, nodup_reachable N,
    fun j ↦ mem_reachable_iff_leads, fun j hj ↦ ?_, pairwise_distance_reachable N⟩
  · have hleast := isLeast_closure hroots
    rw [← roundsLeft_start]
    exact (StackSearch.underway_start hleast.1.1).stops (fun _ _ ↦ Iff.rfl) hleast
  · obtain ⟨n, hn⟩ := exists_reachedOver_iff.mpr (mem_reachable_iff_leads.mp hj)
    exact hn.isLeast_distance

/-- Two states on an epsilon cycle, one of which also has an epsilon edge to itself, between an
initial state and another one. -/
def cyclicAutomaton : Automaton :=
  .ofEdges 4 [⟨3, .full, 0⟩, ⟨1, .full, 2⟩] [(0, 1), (1, 0), (1, 1)] [3] []

/-- Both searches of an automaton with a cycle. -/
theorem closure_and_reachable_exact_cyclic :
    (∀ i ∈ [1, 1], i < cyclicAutomaton.size) ∧
    Stops (StackSearch.round fun i ↦ (cyclicAutomaton.state i).epsilon.toList) 5 (.start [1, 1])
      ⟨.ofList [0, 1], []⟩ ∧
    Stops (QueueSearch.round cyclicAutomaton.targets) 4 (.start [3])
      ⟨[3, 0, 1, 2], .ofList [3, 0, 1, 2], []⟩ ∧
    [3, 0, 1, 2].Pairwise
      fun i j ↦ cyclicAutomaton.distance i ≤ cyclicAutomaton.distance j := by
  have hroots : ∀ i ∈ [1, 1], i < cyclicAutomaton.size := by decide
  have hclosure : cyclicAutomaton.closure [1, 1] = .ofList [0, 1] := by decide +kernel
  have hrounds : [1, 1].length +
      (cyclicAutomaton.epsilonsFrom (IdSet.ofList [0, 1]).toList).length = 5 := by decide +kernel
  have hinitial : cyclicAutomaton.initial.toList = [3] := by decide +kernel
  have hreachable : cyclicAutomaton.reachable = [3, 0, 1, 2] := by decide +kernel
  obtain ⟨hsearch, hlisted, _, _, _, hsorted⟩ := closure_and_reachable_exact cyclicAutomaton
  have hfound := (hsearch [1, 1] hroots).1
  rw [hclosure, hrounds] at hfound
  rw [hreachable, hinitial] at hlisted
  rw [hreachable] at hsorted
  exact ⟨hroots, hfound, hlisted, hsorted⟩

end Automaton

end SignalRegex
