import SignalRegex.Automaton.EdgeMap
import SignalRegex.Automaton.IdSet
import SignalRegex.Automaton.Search

/-!
Automata over code points, with epsilon edges.

States are numbered from zero, and every edge and every mark names a state of the automaton: an
edge or a mark that would not is not added. Between two states there is at most one labelled edge,
the label of which holds all code points that lead from one to the other.

Scope. The numbers of states are natural numbers, which never run out. A number that is kept in a
word of thirty-two bits is the same number as long as an automaton has at most `2 ^ 32` states.
-/

set_option autoImplicit false

namespace SignalRegex

namespace Automaton

/-- The edges out of a state. -/
structure State where
  real : EdgeMap
  epsilon : IdSet
deriving DecidableEq

namespace State

/-- A state without edges. -/
def empty : State :=
  ⟨.empty, .empty⟩

/-- The targets of the labelled edges, then those of the epsilon edges. -/
def targets (s : State) : List Nat :=
  s.real.targets ++ s.epsilon.toList

/-- Whether no edge leaves the state. -/
def isTerminal (s : State) : Bool :=
  s.real.toList.isEmpty && s.epsilon.toList.isEmpty

def addReal (s : State) (target : Nat) (label : CharSet) : State :=
  { s with real := s.real.add target label }

def addEpsilon (s : State) (target : Nat) : State :=
  { s with epsilon := s.epsilon.insert target }

@[simp] theorem targets_empty : empty.targets = [] :=
  rfl

theorem mem_targets_addReal {s : State} {target t : Nat} {label : CharSet}
    (h : t ∈ (s.addReal target label).targets) : t = target ∨ t ∈ s.targets := by
  rcases List.mem_append.mp h with h | h
  · rcases EdgeMap.mem_targets_add h with h | h
    · exact .inl h
    · exact .inr (List.mem_append_left _ h)
  · exact .inr (List.mem_append_right _ h)

theorem mem_targets_addEpsilon {s : State} {target t : Nat}
    (h : t ∈ (s.addEpsilon target).targets) : t = target ∨ t ∈ s.targets := by
  rcases List.mem_append.mp h with h | h
  · exact .inr (List.mem_append_left _ h)
  · rcases IdSet.mem_insert.mp h with h | h
    · exact .inl h
    · exact .inr (List.mem_append_right _ h)

end State

end Automaton

/-- An automaton: its states by number, and which of them are initial and final. -/
structure Automaton where
  states : Array Automaton.State
  initial : IdSet
  finals : IdSet
  targets_lt : ∀ i, ∀ t ∈ (states.getD i .empty).targets, t < states.size
  initial_lt : ∀ i ∈ initial, i < states.size
  finals_lt : ∀ i ∈ finals, i < states.size
deriving DecidableEq

namespace Automaton

def size (N : Automaton) : Nat :=
  N.states.size

/-- The state with a given number. -/
def state (N : Automaton) (i : Nat) : State :=
  N.states.getD i .empty

def targets (N : Automaton) (i : Nat) : List Nat :=
  (N.state i).targets

theorem lt_of_mem_targets {N : Automaton} {i t : Nat} (h : t ∈ N.targets i) : t < N.size :=
  N.targets_lt i t h

/-- States without edges and without marks. -/
def blank (n : Nat) : Automaton where
  states := Array.replicate n .empty
  initial := .empty
  finals := .empty
  targets_lt := by
    intro i t h
    rw [Array.getD_eq_getD_getElem?, Array.getElem?_replicate] at h
    split at h <;> simp at h
  initial_lt := fun _ h ↦ absurd h (IdSet.not_mem_empty _)
  finals_lt := fun _ h ↦ absurd h (IdSet.not_mem_empty _)

@[simp] theorem size_blank (n : Nat) : (blank n).size = n :=
  Array.size_replicate

@[simp] theorem targets_blank (n i : Nat) : (blank n).targets i = [] := by
  unfold targets state blank
  rw [Array.getD_eq_getD_getElem?, Array.getElem?_replicate]
  split <;> rfl

/-- One more state, with the next number. -/
def addState (N : Automaton) : Automaton where
  states := N.states.push .empty
  initial := N.initial
  finals := N.finals
  targets_lt := by
    intro i t h
    rw [Array.getD_eq_getD_getElem?, Array.getElem?_push] at h
    rw [Array.size_push]
    split at h
    · simp at h
    · rw [← Array.getD_eq_getD_getElem?] at h
      exact Nat.lt_succ_of_lt (N.targets_lt i t h)
  initial_lt := fun i h ↦ by rw [Array.size_push]; exact Nat.lt_succ_of_lt (N.initial_lt i h)
  finals_lt := fun i h ↦ by rw [Array.size_push]; exact Nat.lt_succ_of_lt (N.finals_lt i h)

theorem getD_modify (states : Array State) (f : State → State) (source i : Nat) :
    (states.modify source f).getD i .empty =
      if source = i ∧ i < states.size then f (states.getD i .empty) else states.getD i .empty := by
  simp only [Array.getD_eq_getD_getElem?, Array.getElem?_modify]
  by_cases hsource : source = i
  · by_cases hi : i < states.size
    · simp [hsource, hi]
    · simp [hsource, hi]
  · simp [hsource]

/-- The automaton with the edges out of one state changed, given that the change adds no target
that is not a state. -/
def modifyState (N : Automaton) (source : Nat) (f : State → State)
    (hf : ∀ s, ∀ t ∈ (f s).targets, t < N.size ∨ t ∈ s.targets) : Automaton where
  states := N.states.modify source f
  initial := N.initial
  finals := N.finals
  targets_lt := by
    intro i t h
    rw [Array.size_modify]
    rw [getD_modify] at h
    split at h
    · rcases hf _ t h with h | h
      · exact h
      · exact N.targets_lt i t h
    · exact N.targets_lt i t h
  initial_lt := fun i h ↦ by rw [Array.size_modify]; exact N.initial_lt i h
  finals_lt := fun i h ↦ by rw [Array.size_modify]; exact N.finals_lt i h

/-- An edge from `source` to `target` on the code points of `label`, joined to the edge that is
there. -/
def addReal (N : Automaton) (source target : Nat) (label : CharSet) : Automaton :=
  if h : target < N.size then
    N.modifyState source (·.addReal target label) fun _ t ht ↦
      (State.mem_targets_addReal ht).imp (fun heq : t = target ↦ heq ▸ h) id
  else N

/-- An epsilon edge from `source` to `target`. -/
def addEpsilon (N : Automaton) (source target : Nat) : Automaton :=
  if h : target < N.size then
    N.modifyState source (·.addEpsilon target) fun _ t ht ↦
      (State.mem_targets_addEpsilon ht).imp (fun heq : t = target ↦ heq ▸ h) id
  else N

def markInitial (N : Automaton) (i : Nat) : Automaton :=
  if h : i < N.size then
    { N with
      initial := N.initial.insert i
      initial_lt := fun k hk ↦ (IdSet.mem_insert.mp hk).elim (fun heq ↦ heq ▸ h) (N.initial_lt k) }
  else N

def markFinal (N : Automaton) (i : Nat) : Automaton :=
  if h : i < N.size then
    { N with
      finals := N.finals.insert i
      finals_lt := fun k hk ↦ (IdSet.mem_insert.mp hk).elim (fun heq ↦ heq ▸ h) (N.finals_lt k) }
  else N

@[simp] theorem size_addReal (N : Automaton) (source target : Nat) (label : CharSet) :
    (N.addReal source target label).size = N.size := by
  unfold addReal
  split
  · exact Array.size_modify
  · rfl

@[simp] theorem size_addEpsilon (N : Automaton) (source target : Nat) :
    (N.addEpsilon source target).size = N.size := by
  unfold addEpsilon
  split
  · exact Array.size_modify
  · rfl

@[simp] theorem size_markInitial (N : Automaton) (i : Nat) : (N.markInitial i).size = N.size := by
  unfold markInitial
  split <;> rfl

@[simp] theorem size_markFinal (N : Automaton) (i : Nat) : (N.markFinal i).size = N.size := by
  unfold markFinal
  split <;> rfl

theorem mem_targets_addReal {N : Automaton} {source target i t : Nat} {label : CharSet}
    (h : t ∈ (N.addReal source target label).targets i) :
    (i = source ∧ t = target) ∨ t ∈ N.targets i := by
  unfold addReal at h
  split at h
  · unfold targets state modifyState at h
    rw [getD_modify] at h
    split at h
    · rename_i hi
      exact (State.mem_targets_addReal h).imp (fun ht ↦ ⟨hi.1.symm, ht⟩) id
    · exact .inr h
  · exact .inr h

theorem mem_targets_addEpsilon {N : Automaton} {source target i t : Nat}
    (h : t ∈ (N.addEpsilon source target).targets i) :
    (i = source ∧ t = target) ∨ t ∈ N.targets i := by
  unfold addEpsilon at h
  split at h
  · unfold targets state modifyState at h
    rw [getD_modify] at h
    split at h
    · rename_i hi
      exact (State.mem_targets_addEpsilon h).imp (fun ht ↦ ⟨hi.1.symm, ht⟩) id
    · exact .inr h
  · exact .inr h

@[simp] theorem targets_markInitial (N : Automaton) (i k : Nat) :
    (N.markInitial i).targets k = N.targets k := by
  unfold markInitial
  split <;> rfl

@[simp] theorem targets_markFinal (N : Automaton) (i k : Nat) :
    (N.markFinal i).targets k = N.targets k := by
  unfold markFinal
  split <;> rfl

/-- A labelled edge. -/
structure Edge where
  source : Nat
  label : CharSet
  target : Nat
deriving DecidableEq

def addReals (N : Automaton) (edges : List Edge) : Automaton :=
  edges.foldl (fun N e ↦ N.addReal e.source e.target e.label) N

def addEpsilons (N : Automaton) (pairs : List (Nat × Nat)) : Automaton :=
  pairs.foldl (fun N e ↦ N.addEpsilon e.1 e.2) N

def markInitials (N : Automaton) (ids : List Nat) : Automaton :=
  ids.foldl markInitial N

def markFinals (N : Automaton) (ids : List Nat) : Automaton :=
  ids.foldl markFinal N

/-- The automaton with `n` states and the given edges and marks. -/
def ofEdges (n : Nat) (reals : List Edge) (epsilons : List (Nat × Nat))
    (initial finals : List Nat) : Automaton :=
  ((((blank n).addReals reals).addEpsilons epsilons).markInitials initial).markFinals finals

@[simp] theorem size_addReals (N : Automaton) (edges : List Edge) :
    (N.addReals edges).size = N.size := by
  induction edges generalizing N with
  | nil => rfl
  | cons e edges ih => exact (ih _).trans (size_addReal ..)

@[simp] theorem size_addEpsilons (N : Automaton) (pairs : List (Nat × Nat)) :
    (N.addEpsilons pairs).size = N.size := by
  induction pairs generalizing N with
  | nil => rfl
  | cons e pairs ih => exact (ih _).trans (size_addEpsilon ..)

@[simp] theorem size_markInitials (N : Automaton) (ids : List Nat) :
    (N.markInitials ids).size = N.size := by
  induction ids generalizing N with
  | nil => rfl
  | cons i ids ih => exact (ih _).trans (size_markInitial ..)

@[simp] theorem size_markFinals (N : Automaton) (ids : List Nat) :
    (N.markFinals ids).size = N.size := by
  induction ids generalizing N with
  | nil => rfl
  | cons i ids ih => exact (ih _).trans (size_markFinal ..)

@[simp] theorem size_ofEdges (n : Nat) (reals : List Edge) (epsilons : List (Nat × Nat))
    (initial finals : List Nat) : (ofEdges n reals epsilons initial finals).size = n := by
  simp [ofEdges]

theorem mem_targets_addReals {N : Automaton} {edges : List Edge} {i t : Nat}
    (h : t ∈ (N.addReals edges).targets i) :
    (∃ e ∈ edges, e.source = i ∧ e.target = t) ∨ t ∈ N.targets i := by
  induction edges generalizing N with
  | nil => exact .inr h
  | cons e edges ih =>
    rcases ih h with ⟨f, hf, heq⟩ | h
    · exact .inl ⟨f, List.mem_cons_of_mem _ hf, heq⟩
    · rcases mem_targets_addReal h with ⟨hi, ht⟩ | h
      · exact .inl ⟨e, List.mem_cons_self, hi.symm, ht.symm⟩
      · exact .inr h

theorem mem_targets_addEpsilons {N : Automaton} {pairs : List (Nat × Nat)} {i t : Nat}
    (h : t ∈ (N.addEpsilons pairs).targets i) : (i, t) ∈ pairs ∨ t ∈ N.targets i := by
  induction pairs generalizing N with
  | nil => exact .inr h
  | cons e pairs ih =>
    rcases ih h with h | h
    · exact .inl (List.mem_cons_of_mem _ h)
    · rcases mem_targets_addEpsilon h with ⟨hi, ht⟩ | h
      · exact .inl (by rw [hi, ht]; exact List.mem_cons_self)
      · exact .inr h

@[simp] theorem targets_markInitials (N : Automaton) (ids : List Nat) (k : Nat) :
    (N.markInitials ids).targets k = N.targets k := by
  induction ids generalizing N with
  | nil => rfl
  | cons i ids ih => exact (ih _).trans (targets_markInitial ..)

@[simp] theorem targets_markFinals (N : Automaton) (ids : List Nat) (k : Nat) :
    (N.markFinals ids).targets k = N.targets k := by
  induction ids generalizing N with
  | nil => rfl
  | cons i ids ih => exact (ih _).trans (targets_markFinal ..)

/-- Every target of a state comes from one of the given edges. -/
theorem mem_targets_ofEdges {n : Nat} {reals : List Edge} {epsilons : List (Nat × Nat)}
    {initial finals : List Nat} {i t : Nat}
    (h : t ∈ (ofEdges n reals epsilons initial finals).targets i) :
    (∃ e ∈ reals, e.source = i ∧ e.target = t) ∨ (i, t) ∈ epsilons := by
  unfold ofEdges at h
  rw [targets_markFinals, targets_markInitials] at h
  rcases mem_targets_addEpsilons h with h | h
  · exact .inr h
  · rcases mem_targets_addReals h with h | h
    · exact .inl h
    · rw [targets_blank] at h
      exact absurd h List.not_mem_nil

theorem mem_initial_markInitials {N : Automaton} {ids : List Nat} {k : Nat} :
    k ∈ (N.markInitials ids).initial ↔ k ∈ N.initial ∨ (k ∈ ids ∧ k < N.size) := by
  induction ids generalizing N with
  | nil => simp [markInitials]
  | cons i ids ih =>
    refine ih.trans ?_
    rw [size_markInitial]
    unfold markInitial
    split
    · rename_i hi
      simp only [IdSet.mem_insert, List.mem_cons]
      constructor
      · rintro ((rfl | h) | h)
        · exact .inr ⟨.inl rfl, hi⟩
        · exact .inl h
        · exact .inr ⟨.inr h.1, h.2⟩
      · rintro (h | ⟨rfl | h, hk⟩)
        · exact .inl (.inr h)
        · exact .inl (.inl rfl)
        · exact .inr ⟨h, hk⟩
    · rename_i hi
      simp only [List.mem_cons]
      constructor
      · rintro (h | h)
        · exact .inl h
        · exact .inr ⟨.inr h.1, h.2⟩
      · rintro (h | ⟨rfl | h, hk⟩)
        · exact .inl h
        · exact absurd hk hi
        · exact .inr ⟨h, hk⟩

@[simp] theorem initial_markFinal (N : Automaton) (i : Nat) :
    (N.markFinal i).initial = N.initial := by
  unfold markFinal
  split <;> rfl

@[simp] theorem initial_markFinals (N : Automaton) (ids : List Nat) :
    (N.markFinals ids).initial = N.initial := by
  induction ids generalizing N with
  | nil => rfl
  | cons i ids ih => exact (ih _).trans (initial_markFinal ..)

@[simp] theorem initial_addReal (N : Automaton) (source target : Nat) (label : CharSet) :
    (N.addReal source target label).initial = N.initial := by
  unfold addReal
  split <;> rfl

@[simp] theorem initial_addEpsilon (N : Automaton) (source target : Nat) :
    (N.addEpsilon source target).initial = N.initial := by
  unfold addEpsilon
  split <;> rfl

@[simp] theorem initial_addReals (N : Automaton) (edges : List Edge) :
    (N.addReals edges).initial = N.initial := by
  induction edges generalizing N with
  | nil => rfl
  | cons e edges ih => exact (ih _).trans (initial_addReal ..)

@[simp] theorem initial_addEpsilons (N : Automaton) (pairs : List (Nat × Nat)) :
    (N.addEpsilons pairs).initial = N.initial := by
  induction pairs generalizing N with
  | nil => rfl
  | cons e pairs ih => exact (ih _).trans (initial_addEpsilon ..)

theorem mem_initial_ofEdges {n : Nat} {reals : List Edge} {epsilons : List (Nat × Nat)}
    {initial finals : List Nat} {k : Nat} :
    k ∈ (ofEdges n reals epsilons initial finals).initial ↔ k ∈ initial ∧ k < n := by
  unfold ofEdges
  rw [initial_markFinals, mem_initial_markInitials, initial_addEpsilons, initial_addReals,
    size_addEpsilons, size_addReals, size_blank]
  exact or_iff_right (IdSet.not_mem_empty k)

/-- The states that can be reached from the initial ones, in breadth-first order: initial states
in increasing order, and behind each state the targets of its labelled edges before those of its
epsilon edges. -/
def reachable (N : Automaton) : List Nat :=
  search N.targets N.size N.initial.toList

/-- The states that can be reached from `roots` through epsilon edges alone. -/
def closure (N : Automaton) (roots : List Nat) : IdSet :=
  .ofList (search (fun i ↦ (N.state i).epsilon.toList) N.size roots)

/-- The labelled edges out of the listed states. -/
def realsFrom (N : Automaton) (ids : List Nat) : List Edge :=
  ids.flatMap fun i ↦ (N.state i).real.toList.map fun e ↦ ⟨i, e.2, e.1⟩

/-- The epsilon edges out of the listed states, as pairs of source and target. -/
def epsilonsFrom (N : Automaton) (ids : List Nat) : List (Nat × Nat) :=
  ids.flatMap fun i ↦ (N.state i).epsilon.toList.map (i, ·)

/-- How many labelled edges leave reachable states. -/
def transitionCount (N : Automaton) : Nat :=
  N.reachable.foldr (fun i n ↦ (N.state i).real.toList.length + n) 0

theorem nodup_reachable (N : Automaton) : N.reachable.Nodup :=
  nodup_search ..

theorem length_reachable_le (N : Automaton) : N.reachable.length ≤ N.size :=
  length_search_le ..

theorem mem_reachable_of_mem_initial {N : Automaton} {i : Nat} (h : i ∈ N.initial) :
    i ∈ N.reachable :=
  mem_search_of_mem_roots h (N.initial_lt i h)

theorem mem_reachable_of_mem_targets {N : Automaton} {i t : Nat} (hi : i ∈ N.reachable)
    (ht : t ∈ N.targets i) : t ∈ N.reachable :=
  mem_search_of_mem_next hi ht (lt_of_mem_targets ht)

end Automaton

end SignalRegex
