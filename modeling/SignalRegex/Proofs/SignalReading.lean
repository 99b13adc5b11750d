import SignalRegex.Program.Run
import SignalRegex.Proofs.BlockPieces
import SignalRegex.Signal.Table

/-!
What the condition of a set tests for.

The side that is tested for a set, and whether the condition negates it, depend on the set alone and
not on the table it is put into, so a condition has one meaning in every table (`holdsAt_intern`).
Below the limit of the comparators the condition is membership (`tested_iff_mem`). From there on no
comparator answers and the condition is its own negation flag: it holds exactly when the set has
more than half of the edges of blocks (`tested_iff_prevails`). Either way a larger set is tested for
wherever a smaller one is (`Tested.mono`), but a union can be tested for where neither part is.
-/

set_option autoImplicit false

namespace SignalRegex

open CodeRange

namespace CharSet

/-- The condition for the set holds at the code point. -/
def Tested (s : CharSet) (cp : Nat) : Prop :=
  match SignalTable.choose s with
  | none => s.ranges ≠ []
  | some (side, negated) => (RangeSignal.ofCharSet side).contains cp = true ↔ negated = false

/-- The set has more than half of the edges of blocks, or half of them without zero. -/
def Prevails (s : CharSet) : Prop :=
  blockCount < s.edgeCount ∨ s.edgeCount = blockCount ∧ 0 ∉ s

theorem Prevails.mono {s t : CharSet} (h : ∀ cp ∈ s, cp ∈ t) (hs : s.Prevails) : t.Prevails := by
  have hle := edgeCount_mono h
  rcases hs with hmore | ⟨hhalf, hzero⟩
  · exact Or.inl (Nat.lt_of_lt_of_le hmore hle)
  · by_cases hzero' : 0 ∈ t
    · exact Or.inl (hhalf ▸ edgeCount_lt h hzero hzero')
    · by_cases heq : t.edgeCount = blockCount
      · exact Or.inr ⟨heq, hzero'⟩
      · exact Or.inl (by omega)

theorem prevails_canonical {s : CharSet} : s.canonical.Prevails ↔ s.Prevails := by
  rw [Prevails, Prevails, edgeCount_canonical, mem_canonical]

/-- The first range of a sorted list starts at zero where the list has zero. -/
theorem start_eq_zero_of_mem {s : CharSet} {r : CodeRange} {rest : List CodeRange}
    (hranges : s.ranges = r :: rest) (h : 0 ∈ s) : r.start = 0 := by
  obtain ⟨x, hx, hzero⟩ := h
  have hsorted := s.sorted
  rw [hranges] at hx hsorted
  rcases List.mem_cons.mp hx with rfl | hx
  · exact Nat.le_zero.mp hzero.1
  · have hle := le_def.mp (List.rel_of_pairwise_cons hsorted hx)
    rw [CodeRange.mem_def] at hzero
    omega

theorem start_mem {s : CharSet} {r : CodeRange} {rest : List CodeRange}
    (hranges : s.ranges = r :: rest) : r.start ∈ s :=
  ⟨r, hranges ▸ List.mem_cons_self, Nat.le_refl _, r.start_lt_stop⟩

theorem compare_of_start_lt {s t : CharSet} {r x : CodeRange} {rest later : List CodeRange}
    (hs : s.ranges = r :: rest) (ht : t.ranges = x :: later) (h : r.start < x.start) :
    compare s t = .lt ∧ compare t s = .gt := by
  have hlt : compare r x = .lt := by
    change (compare r.start x.start).then (compare r.stop x.stop) = .lt
    rw [Nat.compare_eq_lt.mpr h]
    rfl
  have hgt : compare x r = .gt := by
    change (compare x.start r.start).then (compare x.stop r.stop) = .gt
    rw [Nat.compare_eq_gt.mpr h]
    rfl
  constructor
  · change List.compareLex compare s.ranges t.ranges = .lt
    rw [hs, ht, List.compareLex, hlt]
  · change List.compareLex compare t.ranges s.ranges = .gt
    rw [hs, ht, List.compareLex, hgt]

/-- Between a set and its complement the order of the range lists is decided by zero. -/
theorem isLE_compare_complement {s : CharSet} (hs : s.ranges ≠ []) (hc : s.complement.ranges ≠ []) :
    (compare s s.complement).isLE = true ↔ 0 ∈ s := by
  obtain ⟨r, rest, hr⟩ := List.exists_cons_of_ne_nil hs
  obtain ⟨x, later, hx⟩ := List.exists_cons_of_ne_nil hc
  have hxmem := (mem_complement.mp (start_mem hx)).2
  by_cases hzero : 0 ∈ s
  · have hrzero := start_eq_zero_of_mem hr hzero
    have hxpos : r.start < x.start := by
      rw [hrzero]
      exact Nat.pos_of_ne_zero fun h ↦ hxmem (h ▸ hzero)
    rw [(compare_of_start_lt hr hx hxpos).1]
    exact ⟨fun _ ↦ hzero, fun _ ↦ rfl⟩
  · have hxzero := start_eq_zero_of_mem hx (mem_complement.mpr ⟨by decide, hzero⟩)
    have hrpos : x.start < r.start := by
      rw [hxzero]
      exact Nat.pos_of_ne_zero fun h ↦ hzero (h ▸ start_mem hr)
    rw [(compare_of_start_lt hx hr hrpos).2]
    exact ⟨fun h ↦ absurd h (by decide), fun h ↦ absurd h hzero⟩

end CharSet

namespace SignalTable

open CharSet

/-- The complement is the cheaper side exactly for the sets that prevail. -/
theorem costLE_complement {s : CharSet} (hs : s.ranges ≠ []) (hc : s.complement.ranges ≠ []) :
    costLE s s.complement = true ↔ ¬ s.Prevails := by
  have hcount := SubRange.count_add_blockCount s
  simp only [costLE, Bool.or_eq_true, Bool.and_eq_true, decide_eq_true_eq, beq_iff_eq,
    isLE_compare_complement hs hc, Prevails]
  by_cases hzero : 0 ∈ s
  · simp only [hzero, and_true, not_true_eq_false, and_false, or_false]
    omega
  · simp only [hzero, and_false, or_false, not_false_eq_true, and_true]
    omega

/-- The three outcomes of the choice of a side. -/
theorem choose_cases (s : CharSet) :
    (choose s = none ∧ (s.ranges = [] ∨ s.canonical.complement.ranges = [])) ∨
      (choose s = some (s.canonical, false) ∧ ¬ s.Prevails) ∨
      (choose s = some (s.canonical.complement, true) ∧ s.Prevails) := by
  have hnil : s.canonical.ranges = [] → s.ranges = [] :=
    fun h ↦ Classical.not_not.mp fun hne ↦ ranges_canonical_ne_nil hne h
  unfold choose
  dsimp only
  split_ifs with hnone hcost
  · rw [SubRange.count_eq_zero_iff, SubRange.count_eq_zero_iff] at hnone
    exact Or.inl ⟨rfl, hnone.imp hnil id⟩
  · rw [SubRange.count_eq_zero_iff, SubRange.count_eq_zero_iff, not_or] at hnone
    rw [costLE_complement hnone.1 hnone.2, prevails_canonical] at hcost
    exact Or.inr (Or.inl ⟨rfl, hcost⟩)
  · rw [SubRange.count_eq_zero_iff, SubRange.count_eq_zero_iff, not_or] at hnone
    rw [costLE_complement hnone.1 hnone.2, prevails_canonical, Classical.not_not] at hcost
    exact Or.inr (Or.inr ⟨rfl, hcost⟩)

/-- What is tested is the set, or the complement of a set that prevails. -/
theorem eq_of_choose_eq_some {s side : CharSet} {negated : Bool}
    (h : choose s = some (side, negated)) :
    (side = s.canonical ∧ negated = false ∧ ¬ s.Prevails) ∨
      (side = s.complement ∧ negated = true ∧ s.Prevails) := by
  rcases choose_cases s with ⟨hnone, _⟩ | ⟨hsome, hminor⟩ | ⟨hsome, hmajor⟩
  · rw [hnone] at h
    cases h
  · rw [hsome] at h
    obtain ⟨rfl, rfl⟩ := Prod.mk.inj (Option.some.inj h)
    exact Or.inl ⟨rfl, rfl, hminor⟩
  · rw [hsome] at h
    obtain ⟨rfl, rfl⟩ := Prod.mk.inj (Option.some.inj h)
    exact Or.inr ⟨complement_canonical s, rfl, hmajor⟩

end SignalTable

namespace CharSet

theorem mem_of_complement_canonical_eq_nil {s : CharSet} {cp : Nat}
    (h : s.canonical.complement.ranges = []) (hcp : cp < alphabetSize) : cp ∈ s := by
  by_contra hout
  have hmem : cp ∈ s.canonical.complement :=
    mem_complement.mpr ⟨hcp, fun h ↦ hout (mem_canonical.mp h)⟩
  exact ranges_ne_nil_of_mem hmem h

theorem tested_iff_mem {s : CharSet} {cp : Nat} (hcp : cp < testableLimit) :
    s.Tested cp ↔ cp ∈ s := by
  have halphabet : cp < alphabetSize := Nat.lt_trans hcp (by decide)
  rcases SignalTable.choose_cases s with ⟨hchoose, hempty | hfull⟩ | ⟨hchoose, _⟩ | ⟨hchoose, _⟩
  · rw [Tested, hchoose]
    exact ⟨fun h ↦ absurd hempty h, fun h ↦ absurd hempty (ranges_ne_nil_of_mem h)⟩
  · have hmem := mem_of_complement_canonical_eq_nil hfull halphabet
    rw [Tested, hchoose]
    exact ⟨fun _ ↦ hmem, fun _ ↦ ranges_ne_nil_of_mem hmem⟩
  · rw [Tested, hchoose]
    simp only [RangeSignal.contains_ofCharSet, mem_canonical, hcp, true_and, iff_true]
  · rw [Tested, hchoose]
    simp only [RangeSignal.contains_ofCharSet, mem_complement, mem_canonical, hcp, halphabet,
      true_and, Bool.true_eq_false, iff_false, not_not]

theorem edgeCount_eq_zero {s : CharSet} (h : s.ranges = []) : s.edgeCount = 0 := by
  rw [edgeCount, h, Finset.card_eq_zero]
  ext cp
  simp [mem_edgesIn]

theorem prevails_of_complement_canonical_eq_nil {s : CharSet}
    (h : s.canonical.complement.ranges = []) : s.Prevails := by
  have hcount := SubRange.count_add_blockCount s.canonical
  rw [SubRange.count_eq_zero_iff.mpr h, edgeCount_canonical, Nat.zero_add] at hcount
  have hzero : 0 ∈ s := mem_of_complement_canonical_eq_nil h (by decide)
  have hne : s.canonical.ranges ≠ [] := ranges_ne_nil_of_mem (mem_canonical.mpr hzero)
  have hpos : SubRange.count s.canonical ≠ 0 := fun h ↦ hne (SubRange.count_eq_zero_iff.mp h)
  exact Or.inl (by omega)

theorem tested_iff_prevails {s : CharSet} {cp : Nat} (hcp : testableLimit ≤ cp) :
    s.Tested cp ↔ s.Prevails := by
  have hsilent (side : CharSet) : (RangeSignal.ofCharSet side).contains cp = false := by
    rw [Bool.eq_false_iff]
    intro h
    have := (RangeSignal.contains_ofCharSet.mp h).1
    omega
  rcases SignalTable.choose_cases s with ⟨hchoose, hempty | hfull⟩ | ⟨hchoose, hp⟩ | ⟨hchoose, hp⟩
  · rw [Tested, hchoose]
    have hzero := edgeCount_eq_zero hempty
    constructor
    · exact fun h ↦ absurd hempty h
    · rintro (h | ⟨h, _⟩)
      · omega
      · rw [hzero] at h
        exact absurd h (by decide)
  · have hmem := mem_of_complement_canonical_eq_nil hfull (by decide : 0 < _)
    rw [Tested, hchoose]
    exact ⟨fun _ ↦ prevails_of_complement_canonical_eq_nil hfull, fun _ ↦ ranges_ne_nil_of_mem hmem⟩
  · rw [Tested, hchoose]
    simp only [hsilent, hp, Bool.false_eq_true, iff_true]
  · rw [Tested, hchoose]
    simp only [hsilent, hp, Bool.false_eq_true, Bool.true_eq_false]

theorem Tested.mono {s t : CharSet} {cp : Nat} (h : ∀ c ∈ s, c ∈ t) (hs : s.Tested cp) :
    t.Tested cp := by
  by_cases hcp : cp < testableLimit
  · rw [tested_iff_mem hcp] at *
    exact h cp hs
  · rw [tested_iff_prevails (Nat.le_of_not_lt hcp)] at *
    exact hs.mono h

end CharSet

/-- A list keeps its entries where it is extended. -/
theorem getElem?_of_prefix {α : Type} {l later : List α} {i : Nat} {a : α} (h : l <+: later)
    (hi : l[i]? = some a) : later[i]? = some a := by
  obtain ⟨hlt, rfl⟩ := List.getElem?_eq_some_iff.mp hi
  exact List.prefix_iff_getElem?.mp h i hlt

namespace SignalTable

theorem prefix_intern (t : SignalTable) (s : CharSet) : t.sets <+: (t.intern s).1.sets := by
  unfold intern
  split
  · exact List.prefix_rfl
  · split
    · exact List.prefix_rfl
    · exact List.prefix_append _ _

theorem getElem?_signals {t : SignalTable} {id : Nat} {side : CharSet}
    (h : t.sets[id]? = some side) : t.signals[id]? = some (RangeSignal.ofCharSet side) := by
  rw [signals, List.getElem?_map, h]
  rfl

theorem intern_of_choose_eq_none {s : CharSet} (t : SignalTable) (h : choose s = none) :
    t.intern s = (t, if s.isEmpty then .never else .always) := by
  rw [intern, h]

/-- Where a side is tested, its place in the table is the signal of the condition. -/
theorem intern_of_choose_eq_some {s side : CharSet} {negated : Bool} (t : SignalTable)
    (h : choose s = some (side, negated)) :
    ∃ id, (t.intern s).2 = .signal id negated ∧ (t.intern s).1.sets[id]? = some side := by
  rw [intern, h]
  dsimp only
  split
  · rename_i id hid
    obtain ⟨hlt, heq, _⟩ := List.idxOf?_eq_some_iff.mp hid
    exact ⟨id, rfl, by rw [List.getElem?_eq_getElem hlt, heq]⟩
  · exact ⟨t.size, rfl, by simp [size]⟩

theorem signal?_intern_lt {t : SignalTable} {s : CharSet} {id : Nat}
    (h : (t.intern s).2.signal? = some id) : id < (t.intern s).1.size := by
  cases hchoose : choose s with
  | none =>
    rw [intern_of_choose_eq_none t hchoose] at h
    dsimp only at h
    split_ifs at h <;> simp [Condition.signal?] at h
  | some choice =>
    obtain ⟨place, hcondition, hplace⟩ := intern_of_choose_eq_some t hchoose
    rw [hcondition, Condition.signal?, Option.some.injEq] at h
    exact h ▸ (List.getElem?_eq_some_iff.mp hplace).1

/-- A condition that was put into a table keeps its meaning in every later table. -/
theorem holdsAt_intern {t later : SignalTable} {s : CharSet} {cp : Nat}
    (h : (t.intern s).1.sets <+: later.sets) :
    (t.intern s).2.HoldsAt later.signals cp ↔ s.Tested cp := by
  cases hchoose : choose s with
  | none =>
    rw [intern_of_choose_eq_none t hchoose, CharSet.Tested, hchoose]
    dsimp only
    split_ifs with hempty
    · rw [CharSet.isEmpty, List.isEmpty_iff] at hempty
      exact ⟨False.elim, fun hne ↦ hne hempty⟩
    · rw [CharSet.isEmpty, List.isEmpty_iff] at hempty
      exact ⟨fun _ ↦ hempty, fun _ ↦ trivial⟩
  | some choice =>
    obtain ⟨side, negated⟩ := choice
    obtain ⟨id, hcondition, hplace⟩ := intern_of_choose_eq_some t hchoose
    have hlater : later.sets[id]? = some side := getElem?_of_prefix h hplace
    rw [hcondition, CharSet.Tested, hchoose, Condition.HoldsAt, getElem?_signals hlater]
    simp

end SignalTable

end SignalRegex
