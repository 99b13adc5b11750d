import Mathlib.Data.List.Forall2
import Mathlib.Tactic.SplitIfs
import SignalRegex.Machine.Build

/-!
The checks before a program runs.

A program without faults is one whose numbers all point into its tables and whose subranges are all
found in the shared list (`faults_eq_nil_iff`). What halving finds is there, in whatever order the
list is (`getElem?_of_tap?`), and in a sorted list it finds all that is there (`isSome_tap?`). The
list that a program shares is sorted and has every subrange of its signals, so a program made of
tables has no missing subrange (`isSome_tap?_sharedSubranges`).
-/

set_option autoImplicit false

namespace SignalRegex

/-! ### Halving -/

theorem getElem?_of_tap? {table : Array SubRange} {s : SubRange} {place : Nat}
    (h : tap? table s = some place) : table[place]? = some s := by
  unfold tap? at h
  dsimp only at h
  split_ifs at h with hfound
  rw [Option.some.injEq] at h
  exact h ▸ hfound

namespace SubRange

theorem isLE_compare_iff {s t : SubRange} :
    (compare s t).isLE = true ↔ s.block < t.block ∨ s.block = t.block ∧
      (s.low < t.low ∨ s.low = t.low ∧ s.high ≤ t.high) := by
  change ((compare s.block t.block).then
    ((compare s.low t.low).then (compare s.high t.high))).isLE = true ↔ _
  rw [Ordering.isLE_then_iff_or, Ordering.isLE_then_iff_or, Nat.compare_eq_lt, Nat.compare_eq_lt,
    Nat.compare_eq_eq, Nat.compare_eq_eq, Nat.isLE_compare]

theorem compare_eq_lt_iff {s t : SubRange} :
    compare s t = .lt ↔ s.block < t.block ∨ s.block = t.block ∧
      (s.low < t.low ∨ s.low = t.low ∧ s.high < t.high) := by
  change (compare s.block t.block).then
    ((compare s.low t.low).then (compare s.high t.high)) = .lt ↔ _
  rw [Ordering.then_eq_lt, Ordering.then_eq_lt, Nat.compare_eq_lt, Nat.compare_eq_lt,
    Nat.compare_eq_lt, Nat.compare_eq_eq, Nat.compare_eq_eq]

theorem isLE_compare_trans {s t u : SubRange} (hst : (compare s t).isLE = true)
    (htu : (compare t u).isLE = true) : (compare s u).isLE = true := by
  rw [isLE_compare_iff] at *
  omega

theorem isLE_compare_total (s t : SubRange) :
    ((compare s t).isLE || (compare t s).isLE) = true := by
  rw [Bool.or_eq_true, isLE_compare_iff, isLE_compare_iff]
  omega

theorem eq_of_isLE_compare {s t : SubRange} (hst : (compare s t).isLE = true)
    (hts : (compare t s).isLE = true) : s = t := by
  rw [isLE_compare_iff] at *
  cases s
  cases t
  simp only [mk.injEq] at *
  omega

theorem compare_eq_lt_of_isLE {s t u : SubRange} (hst : (compare s t).isLE = true) (hne : s ≠ t)
    (htu : (compare t u).isLE = true) : compare s u = .lt := by
  rw [isLE_compare_iff] at *
  rw [compare_eq_lt_iff]
  cases s
  cases t
  simp only [ne_eq, mk.injEq] at *
  omega

end SubRange

/-- A list of subranges in which halving finds its way. -/
def SortedSubranges (table : List SubRange) : Prop :=
  table.Pairwise fun s t ↦ (compare s t).isLE = true

theorem SortedSubranges.isLE {table : Array SubRange} (hsorted : SortedSubranges table.toList)
    {i j : Nat} {s t : SubRange} (hij : i ≤ j) (hi : table[i]? = some s) (hj : table[j]? = some t) :
    (compare s t).isLE = true := by
  rw [← Array.getElem?_toList, List.getElem?_eq_some_iff] at hi hj
  obtain ⟨hi, rfl⟩ := hi
  obtain ⟨hj, rfl⟩ := hj
  rcases Nat.lt_or_eq_of_le hij with hlt | rfl
  · exact List.pairwise_iff_getElem.mp hsorted i j hi hj hlt
  · rw [SubRange.isLE_compare_iff]
    omega

/-- Halving keeps the subrange it looks for inside the stretch that is left. Of several equal ones
it may change over to a later one. -/
theorem getElem?_bisect {table : Array SubRange} {s : SubRange} {base size : Nat}
    (hsorted : SortedSubranges table.toList) (hsize : base + size ≤ table.size)
    (h : ∃ place, base ≤ place ∧ place < base + size ∧ table[place]? = some s) :
    table[bisect table s base size]? = some s := by
  fun_induction bisect table s base size with
  | case1 base size hlong half middle next ih =>
    have hhalf : half = size / 2 := rfl
    have hmiddle : middle = base + half := rfl
    obtain ⟨place, hbase, hlt, hplace⟩ := h
    obtain ⟨t, ht⟩ : ∃ t, table[middle]? = some t := by
      exact ⟨table[middle], Array.getElem?_eq_getElem (by omega)⟩
    by_cases hle : (compare t s).isLE = true
    · have hnext : next = middle := by
        change (if _ then middle else base) = middle
        rw [ht, Option.any_some, if_pos hle]
      rw [hnext] at ih ⊢
      refine ih (by omega) ?_
      by_cases hlater : middle ≤ place
      · exact ⟨place, hlater, by omega, hplace⟩
      · have hge := hsorted.isLE (Nat.le_of_not_le hlater) hplace ht
        have heq := SubRange.eq_of_isLE_compare hle hge
        exact ⟨middle, Nat.le_refl _, by omega, heq ▸ ht⟩
    · have hnext : next = base := by
        change (if _ then middle else base) = base
        rw [ht, Option.any_some, if_neg hle]
      have hearlier : place < middle := Nat.lt_of_not_le fun hlater ↦
        hle (hsorted.isLE hlater ht hplace)
      rw [hnext] at ih ⊢
      exact ih (by omega) ⟨place, hbase, by omega, hplace⟩
  | case2 base size hshort =>
    obtain ⟨place, hbase, hlt, hplace⟩ := h
    have heq : place = base := by omega
    exact heq ▸ hplace

theorem isSome_tap? {table : List SubRange} {s : SubRange} (hsorted : SortedSubranges table)
    (hs : s ∈ table) : (tap? table.toArray s).isSome = true := by
  obtain ⟨place, hplace⟩ := List.getElem?_of_mem hs
  have hfound : table.toArray[bisect table.toArray s 0 table.toArray.size]? = some s := by
    refine getElem?_bisect hsorted (Nat.le_of_eq (Nat.zero_add _)) ⟨place, Nat.zero_le _, ?_, ?_⟩
    · rw [Nat.zero_add, List.size_toArray]
      exact (List.getElem?_eq_some_iff.mp hplace).1
    · rw [List.getElem?_toArray, hplace]
  unfold tap?
  dsimp only
  rw [if_pos hfound]
  rfl

/-! ### The shared list -/

theorem eraseRepsBy_loop_sublist {α : Type} (r : α → α → Bool) (a : α) (as acc : List α) :
    (List.eraseRepsBy.loop r a as acc).Sublist (acc.reverse ++ a :: as) := by
  induction as generalizing a acc with
  | nil => simp [List.eraseRepsBy.loop]
  | cons b as ih =>
    unfold List.eraseRepsBy.loop
    split
    · exact (ih a acc).trans (((List.sublist_cons_self b as).cons_cons a).append_left _)
    · simpa using ih b (a :: acc)

theorem mem_eraseRepsBy_loop {a x : SubRange} {as acc : List SubRange}
    (h : x ∈ acc ∨ x ∈ a :: as) : x ∈ List.eraseRepsBy.loop (· == ·) a as acc := by
  induction as generalizing a acc with
  | nil => simpa [List.eraseRepsBy.loop, or_comm] using h
  | cons b as ih =>
    unfold List.eraseRepsBy.loop
    split
    · rename_i heq
      have hab : a = b := eq_of_beq heq
      subst hab
      exact ih (h.imp id fun h ↦ by simpa using h)
    · refine ih ?_
      rcases h with h | h
      · exact Or.inl (List.mem_cons_of_mem _ h)
      · rcases List.mem_cons.mp h with rfl | h
        · exact Or.inl List.mem_cons_self
        · exact Or.inr h

theorem eraseReps_sublist (l : List SubRange) : l.eraseReps.Sublist l := by
  cases l with
  | nil => exact .slnil
  | cons a as => exact eraseRepsBy_loop_sublist _ a as []

theorem mem_eraseReps {x : SubRange} {l : List SubRange} (h : x ∈ l) : x ∈ l.eraseReps := by
  cases l with
  | nil => exact absurd h List.not_mem_nil
  | cons a as => exact mem_eraseRepsBy_loop (Or.inr h)

theorem eraseRepsBy_loop_eq_append {α : Type} (r : α → α → Bool) (a : α) (as acc : List α) :
    List.eraseRepsBy.loop r a as acc = acc.reverse ++ List.eraseRepsBy.loop r a as [] := by
  induction as generalizing a acc with
  | nil => simp [List.eraseRepsBy.loop]
  | cons b as ih =>
    simp only [List.eraseRepsBy.loop]
    split
    · exact ih a acc
    · rw [ih b (a :: acc), ih b [a]]
      simp

/-- In a sorted list equal subranges stand next to each other, so one of each is left. -/
theorem pairwise_eraseReps {l : List SubRange} (h : SortedSubranges l) :
    l.eraseReps.Pairwise fun s t ↦ compare s t = .lt := by
  have hloop (a : SubRange) (as : List SubRange) (h : SortedSubranges (a :: as)) :
      (List.eraseRepsBy.loop (· == ·) a as []).Pairwise fun s t ↦ compare s t = .lt := by
    induction as generalizing a with
    | nil => exact List.pairwise_singleton _ _
    | cons b as ih =>
      obtain ⟨hhead, htail⟩ := List.pairwise_cons.mp h
      unfold List.eraseRepsBy.loop
      split
      · exact ih a (h.sublist ((List.sublist_cons_self b as).cons_cons a))
      · rename_i hne
        rw [eraseRepsBy_loop_eq_append]
        refine List.Pairwise.cons (fun x hx ↦ ?_) (ih b htail)
        have hab : a ≠ b := fun heq ↦ by simp [heq] at hne
        have hx : x ∈ b :: as := (eraseRepsBy_loop_sublist _ b as []).subset hx
        refine SubRange.compare_eq_lt_of_isLE (hhead b List.mem_cons_self) hab ?_
        rcases List.mem_cons.mp hx with rfl | hx
        · rw [SubRange.isLE_compare_iff]
          omega
        · exact List.rel_of_pairwise_cons htail hx
  cases l with
  | nil => exact .nil
  | cons a as => exact hloop a as h

/-- Checks that are made item by item all succeed together. -/
theorem mapM_eq_some_iff {α β : Type} {f : α → Option β} {as : List α} {bs : List β} :
    as.mapM f = some bs ↔ List.Forall₂ (fun a b ↦ f a = some b) as bs := by
  induction as generalizing bs with
  | nil =>
    rw [List.mapM_nil, List.forall₂_nil_left_iff]
    exact Option.some_inj.trans eq_comm
  | cons a as ih =>
    rw [List.mapM_cons, List.forall₂_cons_left_iff]
    simp only [Option.bind_eq_bind, Option.bind_eq_some_iff, ih, Option.pure_def, Option.some.injEq]
    constructor
    · rintro ⟨b, hb, rest, hrest, rfl⟩
      exact ⟨b, rest, hb, hrest, rfl⟩
    · rintro ⟨b, rest, hb, hrest, rfl⟩
      exact ⟨b, hb, rest, hrest, rfl⟩

namespace Program

theorem sorted_mergeSort (l : List SubRange) :
    SortedSubranges (l.mergeSort fun s t ↦ (compare s t).isLE) :=
  @List.pairwise_mergeSort _ (fun s t : SubRange ↦ (compare s t).isLE)
    (fun _ _ _ ↦ SubRange.isLE_compare_trans) SubRange.isLE_compare_total l

theorem sorted_sharedSubranges (signals : List RangeSignal) :
    SortedSubranges (sharedSubranges signals) :=
  (sorted_mergeSort _).sublist (eraseReps_sublist _)

theorem pairwise_sharedSubranges (signals : List RangeSignal) :
    (sharedSubranges signals).Pairwise fun s t ↦ compare s t = .lt :=
  pairwise_eraseReps (sorted_mergeSort _)

theorem mem_sharedSubranges {signals : List RangeSignal} {r : SubRange} :
    r ∈ sharedSubranges signals ↔ ∃ s ∈ signals, r ∈ s.subranges := by
  constructor
  · intro h
    have hsorted := (eraseReps_sublist _).subset h
    exact List.mem_flatMap.mp ((List.mergeSort_perm _ _).mem_iff.mp hsorted)
  · intro h
    exact mem_eraseReps ((List.mergeSort_perm _ _).mem_iff.mpr (List.mem_flatMap.mpr h))

theorem isSome_tap?_sharedSubranges {signals : List RangeSignal} {s : RangeSignal} {r : SubRange}
    (hs : s ∈ signals) (hr : r ∈ s.subranges) :
    (tap? (sharedSubranges signals).toArray r).isSome = true :=
  isSome_tap? (sorted_sharedSubranges signals) (mem_sharedSubranges.mpr ⟨s, hs, hr⟩)

/-! ### Programs without faults -/

/-- Every number in the tables points into its table, and every subrange of a signal is found in the
shared list. -/
structure Consistent (p : Program) : Prop where
  alphabet : p.alphabetSize = SignalRegex.alphabetSize
  index : ∀ (i : Nat) (s : State), p.states[i]? = some s → s.index = i
  source : ∀ s ∈ p.states, ∀ e ∈ s.incoming, e.source < p.states.length
  signal : ∀ s ∈ p.states, ∀ e ∈ s.incoming, ∀ id, e.condition.signal? = some id →
    id < p.signals.length
  accepting : ∀ q ∈ p.patterns, ∀ s ∈ q.accepting, s < p.states.length
  subrange : ∀ s ∈ p.signals, ∀ r ∈ s.subranges, (tap? p.subranges.toArray r).isSome = true

theorem edgeFaults_eq_nil_iff {p : Program} {state : Nat} {e : Edge} :
    p.edgeFaults state e = [] ↔ e.source < p.states.length ∧
      ∀ id, e.condition.signal? = some id → id < p.signals.length := by
  unfold edgeFaults
  rw [List.append_eq_nil_iff]
  refine and_congr ?_ ?_
  · split_ifs with h <;> simp [h]
  · cases e.condition.signal? with
    | none => simp
    | some id =>
      dsimp only
      split_ifs with h <;> simp [h]

theorem stateFaults_eq_nil_iff {p : Program} {i : Nat} {s : State} :
    p.stateFaults i s = [] ↔ s.index = i ∧ ∀ e ∈ s.incoming, e.source < p.states.length ∧
      ∀ id, e.condition.signal? = some id → id < p.signals.length := by
  unfold stateFaults
  rw [List.append_eq_nil_iff, List.flatMap_eq_nil_iff]
  refine and_congr ?_ (by simp only [edgeFaults_eq_nil_iff])
  split_ifs with h <;> simp [h]

theorem flatten_mapIdx_eq_nil_iff {α β : Type} {f : Nat → α → List β} {l : List α} :
    (l.mapIdx f).flatten = [] ↔ ∀ i a, l[i]? = some a → f i a = [] := by
  rw [List.flatten_eq_nil_iff]
  constructor
  · intro h i a ha
    obtain ⟨hi, rfl⟩ := List.getElem?_eq_some_iff.mp ha
    exact h _ (List.mem_mapIdx.mpr ⟨i, hi, rfl⟩)
  · intro h m hm
    obtain ⟨i, hi, rfl⟩ := List.mem_mapIdx.mp hm
    exact h i _ (List.getElem?_eq_getElem hi)

theorem alphabetFaults_eq_nil_iff {p : Program} :
    p.alphabetFaults = [] ↔ p.alphabetSize = SignalRegex.alphabetSize := by
  unfold alphabetFaults
  split_ifs with h <;> simp [h]

theorem patternFaults_eq_nil_iff {p : Program} {i : Nat} {q : Pattern} :
    p.patternFaults i q = [] ↔ ∀ s ∈ q.accepting, s < p.states.length := by
  simp [patternFaults, List.filter_eq_nil_iff]

theorem signalFaults_eq_nil_iff {table : Array SubRange} {i : Nat} {s : RangeSignal} :
    signalFaults table i s = [] ↔ ∀ r ∈ s.subranges, (tap? table r).isSome = true := by
  simp only [signalFaults, List.map_eq_nil_iff, List.filter_eq_nil_iff, Option.isNone_iff_eq_none,
    ← Option.not_isSome_iff_eq_none, Bool.not_eq_true, Bool.not_eq_false]

theorem faults_eq_nil_iff {p : Program} : p.faults = [] ↔ p.Consistent := by
  simp only [faults, List.append_eq_nil_iff, alphabetFaults_eq_nil_iff, flatten_mapIdx_eq_nil_iff,
    stateFaults_eq_nil_iff, patternFaults_eq_nil_iff, signalFaults_eq_nil_iff]
  constructor
  · rintro ⟨⟨⟨halphabet, hstates⟩, hpatterns⟩, hsignals⟩
    refine ⟨halphabet, fun i s h ↦ (hstates i s h).1, fun s hs e he ↦ ?_, fun s hs e he ↦ ?_,
      fun q hq ↦ ?_, fun s hs ↦ ?_⟩
    · obtain ⟨i, hi⟩ := List.getElem?_of_mem hs
      exact ((hstates i s hi).2 e he).1
    · obtain ⟨i, hi⟩ := List.getElem?_of_mem hs
      exact ((hstates i s hi).2 e he).2
    · obtain ⟨i, hi⟩ := List.getElem?_of_mem hq
      exact hpatterns i q hi
    · obtain ⟨i, hi⟩ := List.getElem?_of_mem hs
      exact hsignals i s hi
  · intro h
    refine ⟨⟨⟨h.alphabet, fun i s hs ↦ ⟨h.index i s hs, fun e he ↦ ?_⟩⟩, fun i q hq ↦ ?_⟩,
      fun i s hs ↦ ?_⟩
    · have hmem := List.mem_of_getElem? hs
      exact ⟨h.source s hmem e he, h.signal s hmem e he⟩
    · exact h.accepting q (List.mem_of_getElem? hq)
    · exact h.subrange s (List.mem_of_getElem? hs)

/-- The places of the subranges of every signal in the shared list. -/
def taps (p : Program) : List (List Nat) :=
  p.signals.map fun s ↦ s.subranges.filterMap (tap? p.subranges.toArray)

end Program

/-- A machine is built exactly for a consistent program, and starts on its initial states. -/
theorem Machine.build_eq_ok_iff {p : Program} {m : Machine} :
    Machine.build p = .ok m ↔
      p.Consistent ∧ m = ⟨p, p.taps, p.initialVector.toArray, .start, 0⟩ := by
  rw [← Program.faults_eq_nil_iff, Machine.build]
  cases hfaults : p.faults with
  | nil =>
    simp only [Except.ok.injEq, true_and]
    exact eq_comm
  | cons fault rest => simp

end SignalRegex
