import Mathlib.Order.Bounds.Basic
import SignalRegex.Proofs.BreadthFirstNumbers

/-!
Searches as loops over a stack or a queue, and how many rounds they take.

A search with a stack does not look whether what it puts there was found before, so on a cycle the
stack may grow. The loop still stops, because the successors of a vertex are put there only once: it
takes one round for every root and one for every edge that leaves a vertex it finds
(`StackSearch.Underway.stops`). A search with a queue marks what it puts there and takes one round
for every vertex it lists (`QueueSearch.stops_start`).
-/

set_option autoImplicit false

namespace SignalRegex

/-- A loop stops after `n` rounds. A round that has nothing left to do answers nothing. -/
inductive Stops {σ : Type} (round : σ → Option σ) : Nat → σ → σ → Prop where
  | now {s : σ} : round s = none → Stops round 0 s s
  | later {n : Nat} {s t u : σ} : round s = some t → Stops round n t u → Stops round (n + 1) s u

/-- The sets that have the roots and, with a vertex, all to which its edges lead. -/
def closedSets (edge : Nat → Nat → Prop) (roots : List Nat) : Set (Set Nat) :=
  {S | (∀ i ∈ roots, i ∈ S) ∧ ∀ i ∈ S, ∀ j, edge i j → j ∈ S}

variable {edge : Nat → Nat → Prop} {next : Nat → List Nat} {roots : List Nat} {i : Nat}

/-! ### The loop with a stack -/

/-- A search under way: what it found, and a stack of what it has to look at, where a vertex may lie
more than once. -/
structure StackSearch where
  found : IdSet
  stack : List Nat

namespace StackSearch

variable {s t : StackSearch} {goal found : IdSet}

/-- Nothing is found, and the last root lies on top. -/
def start (roots : List Nat) : StackSearch :=
  ⟨.empty, roots.reverse⟩

/-- Takes the vertex on top. If it is new, all its successors go on the stack. -/
def round (next : Nat → List Nat) (s : StackSearch) : Option StackSearch :=
  match s.stack with
  | [] => none
  | i :: stack =>
    if i ∈ s.found then some ⟨s.found, stack⟩
    else some ⟨s.found.insert i, (next i).reverse ++ stack⟩

theorem round_cases (h : s.round next = some t) :
    ∃ i stack, s.stack = i :: stack ∧
      ((i ∈ s.found ∧ t = ⟨s.found, stack⟩) ∨
        (i ∉ s.found ∧ t = ⟨s.found.insert i, (next i).reverse ++ stack⟩)) := by
  unfold round at h
  split at h
  · cases h
  · rename_i i stack hstack
    refine ⟨i, stack, hstack, ?_⟩
    split_ifs at h with hfound
    · exact Or.inl ⟨hfound, (Option.some.inj h).symm⟩
    · exact Or.inr ⟨hfound, (Option.some.inj h).symm⟩

theorem stack_eq_nil (h : s.round next = none) : s.stack = [] := by
  unfold round at h
  split at h
  · assumption
  · split_ifs at h

/-- What holds in every round: the search stays inside its goal, and of what it has to find
everything is found or lies on the stack. -/
structure Underway (edge : Nat → Nat → Prop) (roots : List Nat) (goal : IdSet)
    (s : StackSearch) : Prop where
  found : ∀ i ∈ s.found, i ∈ goal
  stack : ∀ i ∈ s.stack, i ∈ goal
  roots : ∀ i ∈ roots, i ∈ s.found ∨ i ∈ s.stack
  edges : ∀ i ∈ s.found, ∀ j, edge i j → j ∈ s.found ∨ j ∈ s.stack

theorem underway_start (hroots : ∀ i ∈ roots, i ∈ goal) :
    (start roots).Underway edge roots goal where
  found i hi := absurd hi (IdSet.not_mem_empty i)
  stack i hi := hroots i (List.mem_reverse.mp hi)
  roots _ hi := Or.inr (List.mem_reverse.mpr hi)
  edges i hi := absurd hi (IdSet.not_mem_empty i)

theorem Underway.round (hedge : ∀ i j, edge i j ↔ j ∈ next i)
    (hgoal : ∀ i ∈ goal, ∀ j, edge i j → j ∈ goal) (h : s.Underway edge roots goal)
    (hround : s.round next = some t) : t.Underway edge roots goal := by
  obtain ⟨i, stack, hstack, hcases⟩ := round_cases hround
  have htop : i ∈ goal := h.stack i (hstack ▸ List.mem_cons_self)
  have hrest : ∀ k ∈ stack, k ∈ goal := fun k hk ↦ h.stack k (hstack ▸ List.mem_cons_of_mem i hk)
  have hkeep : ∀ k, k ∈ s.found ∨ k ∈ s.stack → (k ∈ s.found ∨ k = i) ∨ k ∈ stack := by
    intro k hk
    rwa [hstack, List.mem_cons, ← or_assoc] at hk
  obtain ⟨hi, rfl⟩ | ⟨hi, rfl⟩ := hcases
  · have hknown : ∀ k, k ∈ s.found ∨ k ∈ s.stack → k ∈ s.found ∨ k ∈ stack := by
      intro k hk
      refine (hkeep k hk).imp_left fun hfound ↦ hfound.elim id ?_
      rintro rfl
      exact hi
    exact ⟨h.found, hrest, fun k hk ↦ hknown k (h.roots k hk),
      fun k hk l hl ↦ hknown l (h.edges k hk l hl)⟩
  · have hnew : ∀ k, k ∈ s.found ∨ k ∈ s.stack →
        k ∈ s.found.insert i ∨ k ∈ (next i).reverse ++ stack := by
      intro k hk
      refine (hkeep k hk).imp (fun hfound ↦ ?_) (List.mem_append_right _)
      exact IdSet.mem_insert.mpr hfound.symm
    refine ⟨fun k hk ↦ ?_, fun k hk ↦ ?_, fun k hk ↦ hnew k (h.roots k hk), fun k hk l hl ↦ ?_⟩
    · rcases IdSet.mem_insert.mp hk with rfl | hk
      · exact htop
      · exact h.found k hk
    · rcases List.mem_append.mp hk with hk | hk
      · exact hgoal i htop k ((hedge i k).mpr (List.mem_reverse.mp hk))
      · exact hrest k hk
    · rcases IdSet.mem_insert.mp hk with rfl | hk
      · exact Or.inr (List.mem_append_left _ (List.mem_reverse.mpr ((hedge k l).mp hl)))
      · exact hnew l (h.edges k hk l hl)

/-- With an empty stack, what was found is closed and has the roots. -/
theorem Underway.eq_goal (hgoal : IsLeast (closedSets edge roots) {i | i ∈ goal})
    (h : s.Underway edge roots goal) (hstack : s.stack = []) : s = ⟨goal, []⟩ := by
  have hempty : ∀ k, k ∈ s.found ∨ k ∈ s.stack → k ∈ s.found := by
    intro k hk
    rw [hstack] at hk
    exact hk.resolve_right List.not_mem_nil
  have hclosed : {i | i ∈ s.found} ∈ closedSets edge roots :=
    ⟨fun k hk ↦ hempty k (h.roots k hk), fun k hk l hl ↦ hempty l (h.edges k hk l hl)⟩
  have hfound : s.found = goal := IdSet.ext_mem fun k ↦ ⟨h.found k, fun hk ↦ hgoal.2 hclosed hk⟩
  rw [← hfound, ← hstack]

/-- One round for every vertex on the stack and one for every edge out of a vertex that is still to
be found, since that edge puts one on the stack. -/
def roundsLeft (next : Nat → List Nat) (goal : IdSet) (s : StackSearch) : Nat :=
  s.stack.length + ((goal.toList.filter (· ∉ s.found)).flatMap next).length

theorem perm_filter_insert (hi : i ∈ goal) (hnew : i ∉ found) :
    (goal.toList.filter (· ∉ found)).Perm (i :: goal.toList.filter (· ∉ found.insert i)) := by
  have hnodup : goal.toList.Nodup := goal.increasing.imp Nat.ne_of_lt
  have hhead : i ∉ goal.toList.filter (· ∉ found.insert i) := by simp
  refine (List.perm_ext_iff_of_nodup (hnodup.filter _)
    (List.nodup_cons.mpr ⟨hhead, hnodup.filter _⟩)).mpr fun k ↦ ?_
  simp only [List.mem_cons, List.mem_filter, decide_eq_true_eq, IdSet.mem_insert, not_or]
  by_cases hk : k = i
  · subst hk
    simp [hnew, IdSet.mem_def.mp hi]
  · simp [hk]

theorem Underway.roundsLeft_round (h : s.Underway edge roots goal)
    (hround : s.round next = some t) :
    s.roundsLeft next goal = t.roundsLeft next goal + 1 := by
  obtain ⟨i, stack, hstack, ⟨hi, rfl⟩ | ⟨hi, rfl⟩⟩ := round_cases hround
  · rw [roundsLeft, roundsLeft, hstack, List.length_cons, Nat.add_right_comm]
  · have htop : i ∈ goal := h.stack i (hstack ▸ List.mem_cons_self)
    have hperm := ((perm_filter_insert htop hi).flatMap_right next).length_eq
    rw [List.flatMap_cons, List.length_append] at hperm
    rw [roundsLeft, roundsLeft, hstack, hperm]
    simp only [List.length_cons, List.length_append, List.length_reverse]
    omega

theorem roundsLeft_goal (next : Nat → List Nat) (goal : IdSet) :
    roundsLeft next goal ⟨goal, []⟩ = 0 := by
  have hnone : goal.toList.filter (· ∉ goal) = [] :=
    List.filter_eq_nil_iff.mpr fun k hk ↦ by simpa using IdSet.mem_def.mpr hk
  rw [roundsLeft, hnone]
  rfl

/-- The loop stops when it has found its goal. -/
theorem Underway.stops (hedge : ∀ i j, edge i j ↔ j ∈ next i)
    (hgoal : IsLeast (closedSets edge roots) {i | i ∈ goal}) (h : s.Underway edge roots goal) :
    Stops (StackSearch.round next) (s.roundsLeft next goal) s ⟨goal, []⟩ := by
  -- the rounds left fall by one in every round, whether it finds a vertex or not
  induction hleft : s.roundsLeft next goal using Nat.strong_induction_on generalizing s with
  | h n ih =>
    subst hleft
    cases hround : s.round next with
    | none =>
      rw [h.eq_goal hgoal (stack_eq_nil hround), roundsLeft_goal]
      exact .now rfl
    | some t =>
      have hfall := h.roundsLeft_round hround
      rw [hfall]
      exact .later hround (ih _ (by omega) (h.round hedge hgoal.1.2 hround) rfl)

end StackSearch

/-! ### The loop with a queue -/

/-- A search under way: what it listed, what it saw, and a queue of what it saw and did not list. -/
structure QueueSearch where
  listed : List Nat
  seen : IdSet
  queue : List Nat

namespace QueueSearch

variable {s : QueueSearch} {unseen queue xs : List Nat} {n : Nat}

/-- Puts a vertex that was not seen behind the queue. -/
def offer (s : QueueSearch) (j : Nat) : QueueSearch :=
  if j ∈ s.seen then s else ⟨s.listed, s.seen.insert j, s.queue ++ [j]⟩

/-- Nothing is listed, and the roots are in the queue. -/
def start (roots : List Nat) : QueueSearch :=
  roots.foldl offer ⟨[], .empty, []⟩

/-- Lists the head of the queue and offers its successors. -/
def round (next : Nat → List Nat) (s : QueueSearch) : Option QueueSearch :=
  match s.queue with
  | [] => none
  | i :: queue => some ((next i).foldl offer ⟨s.listed ++ [i], s.seen, queue⟩)

/-- The vertices below `n` that the search did not see are those in `unseen`. -/
structure Leaves (n : Nat) (unseen : List Nat) (s : QueueSearch) : Prop where
  nodup : unseen.Nodup
  unseen : ∀ j, j ∈ unseen ↔ j < n ∧ j ∉ s.seen
  seen : ∀ j, j ∈ s.seen ↔ j ∈ s.listed ∨ j ∈ s.queue

theorem leaves_empty (n : Nat) : Leaves n (List.range n) ⟨[], .empty, []⟩ where
  nodup := List.nodup_range
  unseen j := by simp
  seen j := by simp

theorem Leaves.push (h : s.Leaves n unseen) (j : Nat) :
    Leaves n (unseen.erase j) ⟨s.listed, s.seen.insert j, s.queue ++ [j]⟩ := by
  refine ⟨h.nodup.erase j, fun k ↦ ?_, fun k ↦ ?_⟩
  · rw [h.nodup.mem_erase_iff, h.unseen, IdSet.mem_insert, not_or, and_left_comm]
  · rw [IdSet.mem_insert, h.seen, List.mem_append, List.mem_singleton]
    tauto

/-- Offering vertices one after the other takes them out of the unseen ones. -/
theorem Leaves.offerAll (h : s.Leaves n unseen) (hxs : ∀ x ∈ xs, x < n) :
    (xs.foldl offer s).listed = s.listed ∧
    (xs.foldl offer s).queue = s.queue ++ (takeUnseen unseen xs).1 ∧
    (xs.foldl offer s).Leaves n (takeUnseen unseen xs).2 := by
  induction xs generalizing s unseen with
  | nil => exact ⟨rfl, (List.append_nil _).symm, h⟩
  | cons x xs ih =>
    have htail : ∀ y ∈ xs, y < n := fun y hy ↦ hxs y (List.mem_cons_of_mem x hy)
    have hx : x ∈ unseen ↔ x ∉ s.seen :=
      (h.unseen x).trans (and_iff_right (hxs x List.mem_cons_self))
    rw [List.foldl_cons, takeUnseen]
    split_ifs with hin
    · have hnew : s.offer x = ⟨s.listed, s.seen.insert x, s.queue ++ [x]⟩ := if_neg (hx.mp hin)
      obtain ⟨hlisted, hqueue, hleaves⟩ := ih (h.push x) htail
      rw [hnew, hqueue, List.append_assoc]
      exact ⟨hlisted, rfl, hleaves⟩
    · have hknown : s.offer x = s := if_pos (not_not.mp (mt hx.mpr hin))
      rw [hknown]
      exact ih h htail

/-- The loop stops when it has listed what the search from its queue lists. -/
theorem Leaves.stops (hnext : ∀ i, ∀ j ∈ next i, j < n) (h : s.Leaves n unseen)
    (hqueue : s.queue = queue) :
    Stops (QueueSearch.round next) (searchFrom next unseen queue).length s
      ⟨s.listed ++ searchFrom next unseen queue,
        .ofList (s.listed ++ searchFrom next unseen queue), []⟩ := by
  fun_induction searchFrom next unseen queue generalizing s with
  | case1 unseen =>
    have hseen : s.seen = .ofList s.listed := IdSet.ext_mem fun k ↦ by simp [h.seen, hqueue]
    have hend : s = ⟨s.listed, .ofList s.listed, []⟩ := by rw [← hseen, ← hqueue]
    rw [List.append_nil, ← hend]
    refine .now ?_
    rw [QueueSearch.round, hqueue]
  | case2 unseen i queue ih =>
    have hround : s.round next =
        some ((next i).foldl offer ⟨s.listed ++ [i], s.seen, queue⟩) := by
      rw [QueueSearch.round, hqueue]
    have hmoved : Leaves n unseen ⟨s.listed ++ [i], s.seen, queue⟩ := by
      refine ⟨h.nodup, h.unseen, fun k ↦ ?_⟩
      rw [h.seen, hqueue, List.mem_cons, List.mem_append, List.mem_singleton, or_assoc]
    obtain ⟨hlisted, hbehind, hleaves⟩ := hmoved.offerAll (hnext i)
    have hrest := ih hleaves hbehind
    rw [hlisted, List.append_assoc, List.singleton_append] at hrest
    exact .later hround hrest

theorem stops_start (hnext : ∀ i, ∀ j ∈ next i, j < n) (hroots : ∀ i ∈ roots, i < n) :
    Stops (round next) (search next n roots).length (start roots)
      ⟨search next n roots, .ofList (search next n roots), []⟩ := by
  obtain ⟨hlisted, hqueue, hleaves⟩ := (leaves_empty n).offerAll hroots
  have hstops := hleaves.stops hnext hqueue
  rwa [hlisted] at hstops

end QueueSearch

end SignalRegex
