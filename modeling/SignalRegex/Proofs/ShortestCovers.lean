import Mathlib.Data.Finset.Dedup
import SignalRegex.Proofs.ProgramChecks
import SignalRegex.Proofs.SignalReading

/-!
The pieces of a set, and all other ways to put it together from subranges.

The pieces of a set come in order, and two pieces of one block have a gap between them
(`pairwise_decompose`). So they increase and are disjoint, and joined again they are the set. No
list of subranges with the same code points is shorter (`ExactCover.count_le`): every piece is
charged to a subrange that has its first code point, and a subrange charged twice would also have
the code point behind the earlier of the two pieces, which no piece has. The side of a set that is
tested is therefore the cheapest there is on either side.
-/

set_option autoImplicit false

namespace SignalRegex

namespace SubRange

variable {x y z : SubRange} {l : List SubRange} {s : CharSet} {cp : Nat}

/-! ### One subrange -/

theorem ofOffsets_eq_ok (h : x.InBounds) : ofOffsets x.block x.low x.high = .ok x :=
  if_pos h

theorem firstCodePoint_mem (h : x.InBounds) : x.firstCodePoint ∈ x := by
  obtain ⟨_, hle, hlast⟩ := h
  simp only [mem_def, firstCodePoint, blockSize, lastOffset] at *
  omega

theorem lastCodePoint_mem (h : x.InBounds) : x.lastCodePoint ∈ x := by
  obtain ⟨_, hle, hlast⟩ := h
  simp only [mem_def, lastCodePoint, blockSize, lastOffset] at *
  omega

theorem mem_charset (h : x.InBounds) : cp ∈ x.charset ↔ cp ∈ x := by
  obtain ⟨hblock, hle, hlast⟩ := h
  have hbounds : x.firstCodePoint ≤ x.lastCodePoint ∧ x.lastCodePoint < alphabetSize := by
    simp only [firstCodePoint, lastCodePoint, blockSize, blockCount, lastOffset, alphabetSize] at *
    omega
  rw [charset, CodeRange.inclusive_eq_ok hbounds.1 hbounds.2]
  simp only [CharSet.mem_iff_covers, CharSet.ofRange, CodeRange.covers_cons, CodeRange.covers_nil,
    or_false, CodeRange.mem_def, mem_def, firstCodePoint, lastCodePoint, blockSize, lastOffset] at *
  omega

theorem exists_mem_charset_iff (h : ∀ x ∈ l, x.InBounds) :
    (∃ x ∈ l, cp ∈ x.charset) ↔ ∃ x ∈ l, cp ∈ x :=
  exists_congr fun x ↦ and_congr_right fun hx ↦ mem_charset (h x hx)

/-- A subrange has everything between two of its code points. -/
theorem mem_of_le_of_le {a b : Nat} (ha : a ∈ x) (hb : b ∈ x) (hle : a ≤ cp) (hge : cp ≤ b) :
    cp ∈ x := by
  simp only [mem_def, blockSize] at *
  omega

/-! ### Order of the pieces -/

/-- `y` lies in a later block than `x`, or in the same one behind a gap. -/
def Precedes (x y : SubRange) : Prop :=
  x.block < y.block ∨ x.block = y.block ∧ x.high + 1 < y.low

theorem Precedes.not_mem (h : Precedes x y) (hx : cp ∈ x) : cp ∉ y := by
  intro hy
  simp only [Precedes, mem_def] at *
  omega

theorem Precedes.compare_eq_lt (h : Precedes x y) (hx : x.InBounds) : compare x y = .lt := by
  obtain ⟨_, hle, _⟩ := hx
  rw [compare_eq_lt_iff]
  unfold Precedes at h
  omega

theorem precedes_or_precedes (h : l.Pairwise Precedes) (hx : x ∈ l) (hy : y ∈ l) (hne : x ≠ y) :
    Precedes x y ∨ Precedes y x := by
  have hsymm : Std.Symm fun x y ↦ Precedes x y ∨ Precedes y x := ⟨fun _ _ ↦ Or.symm⟩
  have hpairs : l.Pairwise fun x y ↦ Precedes x y ∨ Precedes y x := h.imp Or.inl
  exact hpairs.forall hx hy hne

theorem start_block_le (r : CodeRange) : r.start / blockSize ≤ r.last / blockSize :=
  Nat.div_le_div_right (Nat.le_sub_one_of_lt r.start_lt_stop)

theorem pairwise_ofRange (r : CodeRange) : (ofRange r).Pairwise Precedes := by
  have hlast := start_block_le r
  unfold ofRange
  dsimp only
  split_ifs with hsame
  · exact List.pairwise_singleton _ _
  · -- the blocks alone are in order: the first, those between, and the last
    refine List.pairwise_cons.mpr ⟨fun y hy ↦ Or.inl ?_, List.pairwise_append.mpr
      ⟨?_, List.pairwise_singleton _ _, fun x hx y hy ↦ Or.inl ?_⟩⟩
    · rcases List.mem_append.mp hy with hy | hy
      · obtain ⟨block, hblock, rfl⟩ := List.mem_map.mp hy
        rw [List.mem_range'_1] at hblock
        exact hblock.1
      · obtain rfl := List.mem_singleton.mp hy
        exact Nat.lt_of_le_of_ne hlast hsame
    · rw [List.pairwise_map]
      exact (List.pairwise_lt_range' 1).imp Or.inl
    · obtain ⟨block, hblock, rfl⟩ := List.mem_map.mp hx
      obtain rfl := List.mem_singleton.mp hy
      rw [List.mem_range'_1] at hblock
      dsimp only
      omega

theorem precedes_of_gap {r q : CodeRange} (hgap : r.stop < q.start) (hx : x ∈ ofRange r)
    (hy : y ∈ ofRange q) : Precedes x y := by
  have hxin := inBounds_of_mem_ofRange hx
  have hyin := inBounds_of_mem_ofRange hy
  have hend : x.lastCodePoint < r.stop :=
    (exists_mem_ofRange_iff.mp ⟨x, hx, lastCodePoint_mem hxin⟩).2
  have hbegin : q.start ≤ y.firstCodePoint :=
    (exists_mem_ofRange_iff.mp ⟨y, hy, firstCodePoint_mem hyin⟩).1
  obtain ⟨_, _, hxlast⟩ := hxin
  obtain ⟨_, _, hylast⟩ := hyin
  simp only [Precedes, firstCodePoint, lastCodePoint, blockSize, lastOffset] at *
  omega

theorem pairwise_decompose (s : CharSet) : (decompose s).Pairwise Precedes := by
  refine List.pairwise_flatMap.mpr ⟨fun r _ ↦ pairwise_ofRange r, ?_⟩
  exact List.Pairwise.imp (fun hgap x hx y hy ↦ precedes_of_gap hgap hx hy)
    (CharSet.isCanonical_canonical s)

/-! ### Number of the pieces -/

theorem length_ofRange (r : CodeRange) : (ofRange r).length = piecesOf r := by
  have hlast := start_block_le r
  unfold ofRange piecesOf
  dsimp only
  split_ifs with hsame
  · rw [List.length_singleton]
    omega
  · rw [List.length_cons, List.length_append, List.length_map, List.length_range',
      List.length_singleton]
    omega

theorem length_decompose (s : CharSet) : (decompose s).length = count s := by
  rw [decompose, List.length_flatMap, count_eq]
  exact congrArg List.sum (List.map_congr_left fun r _ ↦ length_ofRange r)

theorem decompose_canonical (s : CharSet) : decompose s.canonical = decompose s := by
  rw [decompose, decompose, CharSet.canonical_eq_self (CharSet.isCanonical_canonical s)]

/-! ### The pieces joined again -/

/-- Subranges of the alphabet that together have the code points of the set and no others. They may
overlap, and one may stand there more than once. -/
structure ExactCover (l : List SubRange) (s : CharSet) : Prop where
  inBounds : ∀ x ∈ l, x.InBounds
  mem_iff : ∀ cp, cp ∈ s ↔ ∃ x ∈ l, cp ∈ x.charset

theorem ExactCover.exists_mem_iff (h : ExactCover l s) : (∃ x ∈ l, cp ∈ x) ↔ cp ∈ s := by
  rw [h.mem_iff, exists_mem_charset_iff h.inBounds]

theorem exactCover_decompose (s : CharSet) : ExactCover (decompose s) s := by
  have hin : ∀ x ∈ decompose s, x.InBounds := fun _ ↦ inBounds_of_mem_decompose
  refine ⟨hin, fun cp ↦ ?_⟩
  rw [exists_mem_charset_iff hin, exists_mem_decompose_iff]

/-- The code points of all subranges of a list, as one set. -/
def joined (l : List SubRange) : CharSet :=
  l.foldl (fun u x ↦ u.union x.charset) .empty

theorem mem_foldl_union {u : CharSet} :
    cp ∈ l.foldl (fun u x ↦ u.union x.charset) u ↔ cp ∈ u ∨ ∃ x ∈ l, cp ∈ x.charset := by
  induction l generalizing u with
  | nil => simp
  | cons x l ih =>
    rw [List.foldl_cons, ih, CharSet.mem_union, List.exists_mem_cons_iff, or_assoc]

theorem mem_joined : cp ∈ joined l ↔ ∃ x ∈ l, cp ∈ x.charset := by
  rw [joined, mem_foldl_union]
  exact or_iff_right (CodeRange.covers_nil cp)

theorem isCanonical_foldl_union {u : CharSet} (hu : u.IsCanonical) :
    (l.foldl (fun u x ↦ u.union x.charset) u).IsCanonical := by
  induction l generalizing u with
  | nil => exact hu
  | cons x l ih => exact ih (CharSet.isCanonical_union u x.charset)

theorem joined_decompose (s : CharSet) : joined (decompose s) = s.canonical := by
  have hempty : CharSet.empty.IsCanonical := List.Pairwise.nil
  refine (isCanonical_foldl_union hempty).eq_of_mem_iff (CharSet.isCanonical_canonical s)
    fun cp ↦ ?_
  rw [← joined, mem_joined, CharSet.mem_canonical, (exactCover_decompose s).mem_iff]

/-- The pieces of a set lie in the alphabet and increase; they are disjoint, together they are the
set, they are as many as was counted, and their comparators answer for the testable code points of
the set. -/
theorem decompose_ordered_exact_cover (s : CharSet) :
    (∀ x ∈ decompose s, ofOffsets x.block x.low x.high = .ok x) ∧
    (decompose s).Pairwise (fun x y ↦ compare x y = .lt) ∧
    (∀ x ∈ decompose s, ∀ y ∈ decompose s, x ≠ y →
      ∀ cp, ¬ (x.charset.contains cp = true ∧ y.charset.contains cp = true)) ∧
    joined (decompose s) = s.canonical ∧
    (decompose s).length = count s ∧
    ∀ cp, (RangeSignal.ofCharSet s).contains cp = true ↔
      cp < testableLimit ∧ s.contains cp = true := by
  have hin : ∀ x ∈ decompose s, x.InBounds := fun _ ↦ inBounds_of_mem_decompose
  refine ⟨fun x hx ↦ ofOffsets_eq_ok (hin x hx), ?_, ?_, joined_decompose s, length_decompose s,
    fun cp ↦ ?_⟩
  · exact (pairwise_decompose s).imp_of_mem fun hx _ h ↦ h.compare_eq_lt (hin _ hx)
  · rintro x hx y hy hne cp ⟨hcx, hcy⟩
    rw [CharSet.contains_iff_mem, mem_charset (hin x hx)] at hcx
    rw [CharSet.contains_iff_mem, mem_charset (hin y hy)] at hcy
    rcases precedes_or_precedes (pairwise_decompose s) hx hy hne with h | h
    · exact h.not_mem hcx hcy
    · exact h.not_mem hcy hcx
  · rw [RangeSignal.contains_ofCharSet, CharSet.contains_iff_mem]

/-! ### No shorter cover -/

theorem nodup_decompose (s : CharSet) : (decompose s).Nodup := by
  refine (pairwise_decompose s).imp_of_mem ?_
  rintro x y hx _ hlt rfl
  have hfirst := firstCodePoint_mem (inBounds_of_mem_decompose hx)
  exact hlt.not_mem hfirst hfirst

/-- Where a block goes on behind a piece of a set, the set lacks the next code point. -/
theorem behind_not_mem (hx : x ∈ decompose s) (hroom : x.high < lastOffset) :
    x.lastCodePoint + 1 ∉ s := by
  rw [← exists_mem_decompose_iff]
  rintro ⟨y, hy, hmem⟩
  obtain ⟨_, hle, _⟩ := inBounds_of_mem_decompose hx
  by_cases heq : x = y
  · subst heq
    simp only [mem_def, lastCodePoint, blockSize, lastOffset] at *
    omega
  · have horder := precedes_or_precedes (pairwise_decompose s) hx hy heq
    simp only [Precedes, mem_def, lastCodePoint, blockSize, lastOffset] at *
    omega

/-- A subrange that has the first code points of two pieces has the code point behind the earlier
one. -/
theorem behind_mem_of_precedes (h : Precedes x y) (hx : x.InBounds) (hy : y.InBounds)
    (hzx : x.firstCodePoint ∈ z) (hzy : y.firstCodePoint ∈ z) :
    x.high < lastOffset ∧ x.lastCodePoint + 1 ∈ z := by
  obtain ⟨_, hxle, hxlast⟩ := hx
  obtain ⟨_, hyle, hylast⟩ := hy
  have hblock : x.block = y.block := by
    simp only [mem_def, firstCodePoint, blockSize, lastOffset] at *
    omega
  have hgap : x.high + 1 < y.low := by
    unfold Precedes at h
    omega
  refine ⟨by omega, mem_of_le_of_le hzx hzy ?_ ?_⟩
  · simp only [firstCodePoint, lastCodePoint]
    omega
  · simp only [firstCodePoint, lastCodePoint, hblock]
    omega

/-- A subrange of a cover has the first code point of at most one piece. -/
theorem ExactCover.eq_of_firstCodePoint_mem (h : ExactCover l s) (hz : z ∈ l)
    (hx : x ∈ decompose s) (hy : y ∈ decompose s) (hzx : x.firstCodePoint ∈ z)
    (hzy : y.firstCodePoint ∈ z) : x = y := by
  have hapart : ∀ {x y : SubRange}, x ∈ decompose s → y ∈ decompose s → x.firstCodePoint ∈ z →
      y.firstCodePoint ∈ z → ¬ Precedes x y := by
    intro x y hx hy hzx hzy hlt
    obtain ⟨hroom, hbehind⟩ := behind_mem_of_precedes hlt (inBounds_of_mem_decompose hx)
      (inBounds_of_mem_decompose hy) hzx hzy
    exact behind_not_mem hx hroom (h.exists_mem_iff.mp ⟨z, hz, hbehind⟩)
  by_contra hne
  rcases precedes_or_precedes (pairwise_decompose s) hx hy hne with hlt | hlt
  · exact hapart hx hy hzx hzy hlt
  · exact hapart hy hx hzy hzx hlt

/-- The pieces of a set are no more than the subranges of any list with its code points. -/
theorem ExactCover.count_le (h : ExactCover l s) : count s ≤ l.length := by
  -- every piece is charged to a subrange that has its first code point
  have hcharge : ∀ x ∈ decompose s, ∃ z ∈ l, x.firstCodePoint ∈ z := by
    intro x hx
    rw [h.exists_mem_iff, ← exists_mem_decompose_iff]
    exact ⟨x, hx, firstCodePoint_mem (inBounds_of_mem_decompose hx)⟩
  choose! charge hcharged hfirst using hcharge
  have hmaps : Set.MapsTo charge (decompose s).toFinset l.toFinset := by
    intro x hx
    rw [Finset.mem_coe, List.mem_toFinset] at hx ⊢
    exact hcharged x hx
  have hinjective : Set.InjOn charge (decompose s).toFinset := by
    intro x hx y hy hsame
    rw [Finset.mem_coe, List.mem_toFinset] at hx hy
    exact h.eq_of_firstCodePoint_mem (hcharged x hx) hx hy (hfirst x hx) (hsame ▸ hfirst y hy)
  calc count s = (decompose s).toFinset.card := by
        rw [List.toFinset_card_of_nodup (nodup_decompose s), length_decompose]
    _ ≤ l.toFinset.card := Finset.card_le_card_of_injOn charge hmaps hinjective
    _ ≤ l.length := l.toFinset_card_le

end SubRange

namespace SignalTable

open SubRange

variable {s side : CharSet} {negated : Bool}

/-- The side that is tested needs no more pieces than the set or its complement. -/
theorem count_le_of_choose (h : choose s = some (side, negated)) :
    count side ≤ count s ∧ count side ≤ count s.complement := by
  have hedges := count_add_blockCount s
  rcases eq_of_choose_eq_some h with ⟨rfl, _, hminor⟩ | ⟨rfl, _, hmajor⟩
  · rw [count_canonical]
    unfold CharSet.Prevails at hminor
    omega
  · unfold CharSet.Prevails at hmajor
    omega

theorem contains_of_choose (h : choose s = some (side, negated)) (cp : Nat) :
    side.contains cp = if negated then s.complement.contains cp else s.contains cp := by
  rcases eq_of_choose_eq_some h with ⟨rfl, rfl, _⟩ | ⟨rfl, rfl, _⟩
  · exact CharSet.contains_canonical s cp
  · rfl

/-- The pieces of a set have its code points, and no subranges with these code points are fewer.
The side that is chosen for a set is the set or its complement, as the flag says, and its pieces are
no more than any subranges for either of the two. -/
theorem count_and_choose_cheapest (s : CharSet) :
    (ExactCover (decompose s) s ∧ (decompose s).length = count s) ∧
    (∀ l, ExactCover l s → count s ≤ l.length) ∧
    ∀ side negated, choose s = some (side, negated) →
      (∀ cp, side.contains cp = if negated then s.complement.contains cp else s.contains cp) ∧
      ExactCover (RangeSignal.ofCharSet side).subranges side ∧
      ∀ l, ExactCover l s ∨ ExactCover l s.complement →
        (RangeSignal.ofCharSet side).subranges.length ≤ l.length := by
  refine ⟨⟨exactCover_decompose s, length_decompose s⟩, fun l h ↦ h.count_le,
    fun side negated h ↦ ?_⟩
  have hpieces : (RangeSignal.ofCharSet side).subranges = decompose side := decompose_canonical side
  obtain ⟨hset, hcomplement⟩ := count_le_of_choose h
  rw [hpieces, length_decompose]
  refine ⟨contains_of_choose h, exactCover_decompose side, ?_⟩
  rintro l (hl | hl)
  · exact hset.trans hl.count_le
  · exact hcomplement.trans hl.count_le

/-- The letters from a to d. -/
def fourLetters : CharSet :=
  .ofRange ⟨0x61, 0x65, by decide, by decide⟩

/-- Two overlapping subranges for four letters, and the choice of a side for everything else: the
letters, in one piece. -/
theorem cheapest_beside_fourLetters :
    ExactCover [⟨1, 33, 35⟩, ⟨1, 34, 36⟩] fourLetters ∧ count fourLetters ≤ 2 ∧
    choose fourLetters.complement = some (fourLetters, true) ∧
    (RangeSignal.ofCharSet fourLetters).subranges.length ≤ 2 := by
  have hcover : ExactCover [⟨1, 33, 35⟩, ⟨1, 34, 36⟩] fourLetters := by
    have hin : ∀ x ∈ [⟨1, 33, 35⟩, ⟨1, 34, 36⟩], InBounds x := by decide
    refine ⟨hin, fun cp ↦ ?_⟩
    simp only [List.forall_mem_cons, List.exists_mem_cons_iff, List.not_mem_nil, false_and,
      exists_false, or_false] at hin ⊢
    rw [mem_charset hin.1, mem_charset hin.2.1]
    simp only [fourLetters, CharSet.mem_iff_covers, CharSet.ofRange, CodeRange.covers_cons,
      CodeRange.covers_nil, or_false, CodeRange.mem_def, SubRange.mem_def, blockSize]
    omega
  have hchoose : choose fourLetters.complement = some (fourLetters, true) := by cbv
  have hdouble : fourLetters.complement.complement = fourLetters := by cbv
  refine ⟨hcover, (count_and_choose_cheapest fourLetters).2.1 _ hcover, hchoose, ?_⟩
  exact ((count_and_choose_cheapest fourLetters.complement).2.2 _ _ hchoose).2.2
    [⟨1, 33, 35⟩, ⟨1, 34, 36⟩] (Or.inr (hdouble.symm ▸ hcover))

end SignalTable

end SignalRegex
