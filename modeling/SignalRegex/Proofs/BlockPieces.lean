import Mathlib.Algebra.GroupWithZero.Nat
import SignalRegex.Proofs.SetAlgebra
import SignalRegex.Signal.Basic

/-!
The pieces of a set and the edges of blocks.

The comparators of a set answer for its testable code points and for no other
(`contains_ofCharSet`). How many pieces a set needs, compared with its complement, depends on the
first and last code points of blocks alone: the difference is the number of these that lie in the
set less the number of blocks (`count_add_blockCount`). That number grows with the set, although the
number of pieces does not.
-/

set_option autoImplicit false

namespace SignalRegex

open CodeRange

/-! ### What the comparators answer -/

namespace SubRange

/-- The code points of the block of a subrange whose offsets are between the two. -/
instance : Membership Nat SubRange :=
  ⟨fun x cp ↦ cp / blockSize = x.block ∧ x.low ≤ cp % blockSize ∧ cp % blockSize ≤ x.high⟩

theorem mem_def {x : SubRange} {cp : Nat} : cp ∈ x ↔
    cp / blockSize = x.block ∧ x.low ≤ cp % blockSize ∧ cp % blockSize ≤ x.high :=
  Iff.rfl

theorem contains_eq_true_iff {x : SubRange} {cp : Nat} :
    x.contains cp = true ↔ cp < testableLimit ∧ cp ∈ x := by
  simp [contains, mem_def, and_assoc]

/-- The pieces of a range have the code points of the range. -/
theorem exists_mem_ofRange_iff {r : CodeRange} {cp : Nat} :
    (∃ x ∈ ofRange r, cp ∈ x) ↔ cp ∈ r := by
  have hr := r.start_lt_stop
  have hlast : r.last = r.stop - 1 := rfl
  rw [CodeRange.mem_def]
  unfold ofRange
  dsimp only
  split_ifs with hsame
  · simp only [List.mem_singleton, exists_eq_left, mem_def, blockSize] at *
    omega
  · simp only [List.mem_cons, List.mem_append, List.mem_map, List.mem_range'_1, List.not_mem_nil,
      or_false, or_and_right, exists_or, exists_eq_left, mem_def, blockSize, lastOffset] at *
    constructor
    · rintro (h | ⟨x, ⟨block, hblock, rfl⟩, h⟩ | h)
      · omega
      · dsimp only at h
        omega
      · omega
    · intro hmem
      by_cases hfirst : cp / 64 = r.start / 64
      · exact Or.inl (by omega)
      · by_cases hfinal : cp / 64 = r.last / 64
        · exact Or.inr (Or.inr (by omega))
        · exact Or.inr (Or.inl ⟨⟨cp / 64, 0, 63⟩, ⟨cp / 64, by omega, rfl⟩, rfl,
            Nat.zero_le _, by dsimp only; omega⟩)

theorem exists_mem_decompose_iff {s : CharSet} {cp : Nat} :
    (∃ x ∈ decompose s, cp ∈ x) ↔ cp ∈ s := by
  rw [← CharSet.mem_canonical, CharSet.mem_def]
  constructor
  · rintro ⟨x, hx, hcp⟩
    obtain ⟨r, hr, hx⟩ := List.mem_flatMap.mp hx
    exact ⟨r, hr, exists_mem_ofRange_iff.mp ⟨x, hx, hcp⟩⟩
  · rintro ⟨r, hr, hcp⟩
    obtain ⟨x, hx, hcp⟩ := exists_mem_ofRange_iff.mpr hcp
    exact ⟨x, List.mem_flatMap.mpr ⟨r, hr, hx⟩, hcp⟩

/-- The pieces of a range of the alphabet lie in blocks of the alphabet. -/
theorem inBounds_of_mem_ofRange {r : CodeRange} {s : SubRange} (h : s ∈ ofRange r) :
    s.InBounds := by
  have hstart := r.start_lt_stop
  have hlast : r.last = r.stop - 1 := rfl
  have hstop : r.stop ≤ 0x200000 := r.stop_le
  unfold InBounds blockCount lastOffset
  unfold ofRange blockSize lastOffset at h
  dsimp only at h
  split_ifs at h with hsame
  · obtain rfl := List.mem_singleton.mp h
    dsimp only
    omega
  · rcases List.mem_cons.mp h with rfl | h
    · dsimp only
      omega
    · rcases List.mem_append.mp h with h | h
      · obtain ⟨block, hblock, rfl⟩ := List.mem_map.mp h
        rw [List.mem_range'_1] at hblock
        dsimp only
        omega
      · obtain rfl := List.mem_singleton.mp h
        dsimp only
        omega

theorem inBounds_of_mem_decompose {c : CharSet} {s : SubRange} (h : s ∈ decompose c) :
    s.InBounds := by
  obtain ⟨r, _, hs⟩ := List.mem_flatMap.mp h
  exact inBounds_of_mem_ofRange hs

end SubRange

namespace RangeSignal

theorem contains_ofCharSet {s : CharSet} {cp : Nat} :
    (ofCharSet s).contains cp = true ↔ cp < testableLimit ∧ cp ∈ s := by
  rw [contains, ofCharSet, List.any_eq_true, ← CharSet.mem_canonical,
    ← SubRange.exists_mem_decompose_iff]
  simp only [SubRange.contains_eq_true_iff]
  constructor
  · rintro ⟨x, hx, htest, hcp⟩
    exact ⟨htest, x, hx, hcp⟩
  · rintro ⟨htest, x, hx, hcp⟩
    exact ⟨x, hx, htest, hcp⟩

end RangeSignal

/-! ### Edges of blocks -/

/-- The first or the last code point of a block. -/
def IsBlockEdge (cp : Nat) : Prop :=
  cp % blockSize = 0 ∨ cp % blockSize = lastOffset

instance : DecidablePred IsBlockEdge :=
  fun _ ↦ inferInstanceAs (Decidable (_ ∨ _))

/-- How many code points below `n` are edges of blocks. -/
def edgesBelow (n : Nat) : Nat :=
  n / blockSize + (n + lastOffset) / blockSize

theorem edgesBelow_succ (n : Nat) :
    edgesBelow (n + 1) = edgesBelow n + if IsBlockEdge n then 1 else 0 := by
  by_cases hedge : IsBlockEdge n
  · rw [if_pos hedge]
    simp only [IsBlockEdge, edgesBelow, blockSize, lastOffset] at *
    omega
  · rw [if_neg hedge]
    simp only [IsBlockEdge, edgesBelow, blockSize, lastOffset] at *
    omega

theorem edgesBelow_mono {m n : Nat} (h : m ≤ n) : edgesBelow m ≤ edgesBelow n :=
  Nat.add_le_add (Nat.div_le_div_right h) (Nat.div_le_div_right (Nat.add_le_add_right h _))

/-- The edges of blocks that the ranges of a list have. -/
def edgesIn (ranges : List CodeRange) : Finset Nat :=
  (Finset.range alphabetSize).filter fun cp ↦ IsBlockEdge cp ∧ Covers ranges cp

theorem mem_edgesIn {ranges : List CodeRange} {cp : Nat} :
    cp ∈ edgesIn ranges ↔ cp < alphabetSize ∧ IsBlockEdge cp ∧ Covers ranges cp := by
  rw [edgesIn, Finset.mem_filter, Finset.mem_range]

/-- How many edges of blocks lie in a range. -/
def CodeRange.edges (r : CodeRange) : Nat :=
  edgesBelow r.stop - edgesBelow r.start

theorem card_filter_isBlockEdge {m n : Nat} (h : m ≤ n) :
    ((Finset.Ico m n).filter IsBlockEdge).card = edgesBelow n - edgesBelow m := by
  induction n, h using Nat.le_induction with
  | base => simp
  | succ n hmn ih =>
    have hmono := edgesBelow_mono hmn
    rw [Nat.Ico_succ_right_eq_insert_Ico hmn, Finset.filter_insert, edgesBelow_succ]
    split_ifs with hedge
    · rw [Finset.card_insert_of_notMem (by simp), ih]
      omega
    · rw [ih, Nat.add_zero]

/-- In a list of separated ranges the edges can be counted range by range. -/
theorem card_edgesIn {rs : List CodeRange} (h : CharSet.Separated rs) :
    (edgesIn rs).card = (rs.map CodeRange.edges).sum := by
  rw [edgesIn, CharSet.card_filter_covers IsBlockEdge h]
  refine congrArg List.sum (List.map_congr_left fun r _ ↦ ?_)
  exact card_filter_isBlockEdge (Nat.le_of_lt r.start_lt_stop)

theorem card_edgesIn_singleton (r : CodeRange) : (edgesIn [r]).card = r.edges :=
  card_edgesIn (List.pairwise_singleton _ r)

namespace CharSet

/-- How many edges of blocks lie in the set. -/
def edgeCount (s : CharSet) : Nat :=
  (edgesIn s.ranges).card

theorem edgesIn_subset {s t : CharSet} (h : ∀ cp ∈ s, cp ∈ t) :
    edgesIn s.ranges ⊆ edgesIn t.ranges := by
  intro cp hcp
  rw [mem_edgesIn] at *
  exact ⟨hcp.1, hcp.2.1, h cp hcp.2.2⟩

theorem edgeCount_mono {s t : CharSet} (h : ∀ cp ∈ s, cp ∈ t) : s.edgeCount ≤ t.edgeCount :=
  Finset.card_le_card (edgesIn_subset h)

/-- Zero is an edge, so a larger set that has it where the smaller one lacks it has more edges. -/
theorem edgeCount_lt {s t : CharSet} (h : ∀ cp ∈ s, cp ∈ t) (hs : 0 ∉ s) (ht : 0 ∈ t) :
    s.edgeCount < t.edgeCount := by
  refine Finset.card_lt_card ((Finset.ssubset_iff_of_subset (edgesIn_subset h)).mpr ⟨0, ?_, ?_⟩)
  · exact mem_edgesIn.mpr ⟨by decide, Or.inl rfl, ht⟩
  · exact fun hmem ↦ hs (mem_edgesIn.mp hmem).2.2

theorem edgeCount_canonical (s : CharSet) : s.canonical.edgeCount = s.edgeCount :=
  Nat.le_antisymm (edgeCount_mono fun _ ↦ mem_canonical.mp)
    (edgeCount_mono fun _ ↦ mem_canonical.mpr)

end CharSet

/-! ### The number of pieces -/

namespace SubRange

/-- How many pieces one range falls into. -/
def piecesOf (r : CodeRange) : Nat :=
  r.last / blockSize - r.start / blockSize + 1

theorem count_eq (s : CharSet) : count s = (s.canonical.ranges.map piecesOf).sum := by
  rw [List.sum_eq_foldr, List.foldr_map]
  rfl

theorem count_canonical (s : CharSet) : count s.canonical = count s := by
  rw [count, count, CharSet.canonical_eq_self (CharSet.isCanonical_canonical s)]

theorem count_eq_zero_iff {s : CharSet} : count s = 0 ↔ s.ranges = [] := by
  constructor
  · intro hzero
    by_contra hne
    obtain ⟨r, rest, hranges⟩ := List.exists_cons_of_ne_nil (CharSet.ranges_canonical_ne_nil hne)
    rw [count_eq, hranges, List.map_cons, List.sum_cons, piecesOf] at hzero
    omega
  · intro hnil
    have hcanonical : s.canonical.ranges = [] := by
      change CharSet.fuse s.ranges = []
      rw [hnil]
      rfl
    rw [count_eq, hcanonical]
    rfl

theorem sum_piecesOf_between (start stop : Nat) (hstop : stop ≤ alphabetSize) :
    ((CodeRange.between start stop hstop).map piecesOf).sum =
      if start < stop then (stop - 1) / blockSize - start / blockSize + 1 else 0 := by
  unfold CodeRange.between
  split_ifs with hlt
  · rfl
  · rfl

/-- Cutting a separated list out of the alphabet, from `start` on: every range of the list ends one
gap and starts the next one. A gap that is empty is left out, and only the gap before zero can
be. -/
theorem sum_piecesOf_trim (start : Nat) (cs : List CodeRange) (hlt : start < alphabetSize)
    (hc : CharSet.Separated cs) (hstart : ∀ c ∈ cs, start < c.start ∨ start = 0) :
    (cs.map piecesOf).sum + (blockCount - start / blockSize) =
      ((CharSet.trim .full start cs).map piecesOf).sum + (cs.map CodeRange.edges).sum := by
  induction cs generalizing start with
  | nil =>
    have hleft : start < CodeRange.full.stop := hlt
    rw [CharSet.trim, sum_piecesOf_between, if_pos hleft]
    simp only [List.map_nil, List.sum_nil, CodeRange.full, alphabetSize, blockSize,
      blockCount] at *
    omega
  | cons c cs ih =>
    have hc₀ := hstart c List.mem_cons_self
    have hclt := c.start_lt_stop
    have hcle := c.stop_le
    have hbehind : c.start < CodeRange.full.stop := Nat.lt_of_lt_of_le hclt hcle
    have hmax : max start c.stop = c.stop := by omega
    rw [CharSet.trim, if_pos hbehind, hmax, List.map_cons, List.map_cons, List.sum_cons,
      List.sum_cons, List.map_append, List.sum_append, sum_piecesOf_between]
    have hedges : c.edges = edgesBelow c.stop - edgesBelow c.start := rfl
    have hpieces : piecesOf c = (c.stop - 1) / blockSize - c.start / blockSize + 1 := rfl
    rw [hedges, hpieces]
    by_cases hdone : CodeRange.full.stop ≤ c.stop
    · -- `c` reaches the end of the alphabet, so nothing comes after it
      have hnil : cs = [] := by
        rw [List.eq_nil_iff_forall_not_mem]
        intro x hx
        have hafter := List.rel_of_pairwise_cons hc hx
        have hxlt := x.start_lt_alphabetSize
        change alphabetSize ≤ c.stop at hdone
        omega
      subst hnil
      rw [if_pos hdone]
      change alphabetSize ≤ c.stop at hdone
      simp only [edgesBelow, alphabetSize, blockSize, blockCount, lastOffset, List.map_nil,
        List.sum_nil] at *
      split_ifs with hgap <;> omega
    · -- the gap before `c`, and what is left behind it
      have hrest : ∀ x ∈ cs, c.stop < x.start ∨ c.stop = 0 :=
        fun x hx ↦ Or.inl (List.rel_of_pairwise_cons hc hx)
      have htail := ih c.stop (Nat.lt_of_not_le hdone) hc.tail hrest
      rw [if_neg hdone]
      simp only [edgesBelow, alphabetSize, blockSize, blockCount, lastOffset] at *
      split_ifs with hgap <;> omega

/-- The complement is what the ranges of the set leave of the alphabet; none ends at zero. -/
theorem ranges_complement (s : CharSet) :
    s.complement.ranges = CharSet.trim .full 0 s.canonical.ranges := by
  have hkept : (s.canonical.ranges.dropWhile fun c ↦ c.stop ≤ 0) = s.canonical.ranges := by
    cases s.canonical.ranges with
    | nil => rfl
    | cons c cs =>
      have hne : c.stop ≠ 0 := Nat.ne_zero_of_lt c.start_lt_stop
      exact List.dropWhile_cons_of_neg (by simpa using hne)
  change CharSet.trim .full 0 (s.canonical.ranges.dropWhile fun c ↦ c.stop ≤ 0) ++ [] = _
  rw [hkept, List.append_nil]

/-- A set needs more pieces than its complement by as much as the edges in it outnumber the
blocks. -/
theorem count_add_blockCount (s : CharSet) :
    count s + blockCount = count s.complement + s.edgeCount := by
  have hcanonical := CharSet.isCanonical_canonical s
  have hcut := sum_piecesOf_trim 0 s.canonical.ranges (by decide) hcanonical fun _ _ ↦ Or.inr rfl
  have hcomplement : s.complement.canonical.ranges = CharSet.trim .full 0 s.canonical.ranges := by
    rw [CharSet.canonical_eq_self (s := s.complement) (CharSet.isCanonical_difference _ _)]
    exact ranges_complement s
  have hedges : s.edgeCount = (s.canonical.ranges.map CodeRange.edges).sum := by
    rw [← CharSet.edgeCount_canonical, CharSet.edgeCount, card_edgesIn hcanonical]
  rw [count_eq, count_eq, hcomplement, hedges]
  exact hcut

end SubRange

end SignalRegex
