/-!
Finite sets of state numbers as increasing lists. Two sets with the same members are equal
(`ext_mem`).
-/

set_option autoImplicit false

namespace SignalRegex

/-- A set of numbers, listed from the smallest to the greatest. -/
structure IdSet where
  toList : List Nat
  increasing : toList.Pairwise (· < ·)
deriving DecidableEq

namespace IdSet

instance : Membership Nat IdSet :=
  ⟨fun s i ↦ i ∈ s.toList⟩

theorem mem_def {i : Nat} {s : IdSet} : i ∈ s ↔ i ∈ s.toList :=
  Iff.rfl

instance (i : Nat) (s : IdSet) : Decidable (i ∈ s) :=
  inferInstanceAs (Decidable (i ∈ s.toList))

def empty : IdSet :=
  ⟨[], .nil⟩

@[simp] theorem not_mem_empty (i : Nat) : i ∉ empty :=
  List.not_mem_nil

/-- Puts a number into its place in an increasing list. -/
def place (i : Nat) : List Nat → List Nat
  | [] => [i]
  | j :: rest =>
    if i < j then i :: j :: rest else if i = j then j :: rest else j :: place i rest

theorem mem_place {i k : Nat} {l : List Nat} : k ∈ place i l ↔ k = i ∨ k ∈ l := by
  induction l with
  | nil => simp [place]
  | cons j rest ih =>
    unfold place
    split
    · simp
    · split
      · rename_i h
        subst h
        simp
      · simp only [List.mem_cons, ih]
        constructor
        · rintro (h | h | h) <;> simp [h]
        · rintro (h | h | h) <;> simp [h]

theorem increasing_place {i : Nat} {l : List Nat} (h : l.Pairwise (· < ·)) :
    (place i l).Pairwise (· < ·) := by
  induction l with
  | nil => exact List.pairwise_singleton _ _
  | cons j rest ih =>
    have hj := List.pairwise_cons.mp h
    unfold place
    split
    · rename_i hlt
      refine List.Pairwise.cons (fun k hk ↦ ?_) h
      rcases List.mem_cons.mp hk with rfl | hk
      · exact hlt
      · exact Nat.lt_trans hlt (hj.1 k hk)
    · split
      · exact h
      · refine List.Pairwise.cons (fun k hk ↦ ?_) (ih hj.2)
        rcases mem_place.mp hk with rfl | hk
        · omega
        · exact hj.1 k hk

def insert (s : IdSet) (i : Nat) : IdSet :=
  ⟨place i s.toList, increasing_place s.increasing⟩

@[simp] theorem mem_insert {i k : Nat} {s : IdSet} : k ∈ s.insert i ↔ k = i ∨ k ∈ s :=
  mem_place

def ofList (l : List Nat) : IdSet :=
  l.foldl insert empty

theorem mem_foldl_insert {l : List Nat} {s : IdSet} {k : Nat} :
    k ∈ l.foldl insert s ↔ k ∈ l ∨ k ∈ s := by
  induction l generalizing s with
  | nil => simp
  | cons i l ih =>
    rw [List.foldl_cons, ih, mem_insert, List.mem_cons]
    constructor
    · rintro (h | h | h) <;> simp [h]
    · rintro ((h | h) | h) <;> simp [h]

@[simp] theorem mem_ofList {l : List Nat} {k : Nat} : k ∈ ofList l ↔ k ∈ l := by
  simp [ofList, mem_foldl_insert]

/-- The members of `s` that pass a test. -/
def filter (s : IdSet) (p : Nat → Bool) : IdSet :=
  ⟨s.toList.filter p, s.increasing.filter p⟩

@[simp] theorem mem_filter {s : IdSet} {p : Nat → Bool} {k : Nat} :
    k ∈ s.filter p ↔ k ∈ s ∧ p k = true :=
  List.mem_filter

theorem eq_of_mem_iff : ∀ {l m : List Nat}, l.Pairwise (· < ·) → m.Pairwise (· < ·) →
    (∀ k, k ∈ l ↔ k ∈ m) → l = m
  | [], [], _, _, _ => rfl
  | [], j :: _, _, _, h => absurd ((h j).mpr List.mem_cons_self) List.not_mem_nil
  | i :: _, [], _, _, h => absurd ((h i).mp List.mem_cons_self) List.not_mem_nil
  | i :: l, j :: m, hl, hm, h => by
    have hi := List.pairwise_cons.mp hl
    have hj := List.pairwise_cons.mp hm
    have hij : i = j := by
      rcases List.mem_cons.mp ((h i).mp List.mem_cons_self) with hij | him
      · exact hij
      · rcases List.mem_cons.mp ((h j).mpr List.mem_cons_self) with hji | hjl
        · exact hji.symm
        · have := hi.1 j hjl
          have := hj.1 i him
          omega
    subst hij
    have htail : ∀ k, k ∈ l ↔ k ∈ m := by
      intro k
      constructor
      · intro hk
        rcases List.mem_cons.mp ((h k).mp (List.mem_cons_of_mem _ hk)) with hki | hkm
        · have := hi.1 k hk
          omega
        · exact hkm
      · intro hk
        rcases List.mem_cons.mp ((h k).mpr (List.mem_cons_of_mem _ hk)) with hki | hkl
        · have := hj.1 k hk
          omega
        · exact hkl
    rw [eq_of_mem_iff hi.2 hj.2 htail]

theorem ext_mem {s t : IdSet} (h : ∀ k, k ∈ s ↔ k ∈ t) : s = t := by
  cases s with
  | mk l hl =>
    cases t with
    | mk m hm =>
      have : l = m := eq_of_mem_iff hl hm h
      subst this
      rfl

end IdSet

end SignalRegex
