import Mathlib.Algebra.GroupWithZero.Nat
import Mathlib.Order.Interval.Finset.Nat
import SignalRegex.Proofs.SetMembership

/-!
Sets of code points as an algebra with a normal form.

Union, difference and complement are exact, and their answers are tidy: ranges in order, without
common code points, no two of which touch. A set is tidy when joining its ranges changes nothing
(`canonical_eq_self_iff`), and the tidy form is a name for the members (`canonical_eq_iff`). Ranges
with gaps between them can be counted one at a time (`card_filter_covers`), so the size of a set is
the number of its members, and no partial sum of it leaves the alphabet (`sum_size_le`).
-/

set_option autoImplicit false

namespace SignalRegex

open CodeRange

namespace CharSet

variable {s t : CharSet} {cp : Nat} {rs : List CodeRange}

/-! ### Tidy sets -/

/-- The ranges are ranges of the alphabet, in order, and no two of them share a code point or
touch. -/
structure Tidy (s : CharSet) : Prop where
  valid : ∀ r ∈ s.ranges, r.start < r.stop ∧ r.stop ≤ alphabetSize
  ordered : s.ranges.Pairwise (· ≤ ·)
  disjoint : s.ranges.Pairwise fun r q ↦ ∀ cp ∈ r, cp ∉ q
  untouched : s.ranges.Pairwise fun r q ↦ r.stop ≠ q.start ∧ q.stop ≠ r.start

theorem Tidy.isCanonical (h : s.Tidy) : s.IsCanonical := by
  refine ((h.ordered.and h.disjoint).and h.untouched).imp ?_
  rintro r q ⟨⟨hle, hdisjoint⟩, htouch, _⟩
  have hstart : r.start ≤ q.start := by
    rw [CodeRange.le_def] at hle
    omega
  -- where `q` starts, `r` is over: the two have no common code point
  have hstop : r.stop ≤ q.start := Nat.le_of_not_lt fun hlt ↦
    hdisjoint q.start ⟨hstart, hlt⟩ ⟨Nat.le_refl _, q.start_lt_stop⟩
  exact Nat.lt_of_le_of_ne hstop htouch

theorem IsCanonical.tidy (h : s.IsCanonical) : s.Tidy where
  valid := fun r _ ↦ ⟨r.start_lt_stop, r.stop_le⟩
  ordered := s.sorted
  disjoint := by
    refine List.Pairwise.imp (fun {r q} hgap cp hr hq ↦ ?_) h
    exact Nat.lt_asymm hr.2 (Nat.lt_of_lt_of_le hgap hq.1)
  untouched := by
    refine List.Pairwise.imp (fun {r q} hgap ↦ ?_) h
    have hr := r.start_lt_stop
    have hq := q.start_lt_stop
    exact ⟨Nat.ne_of_lt hgap, by omega⟩

/-- Joining changes nothing in a tidy set, and in no other. -/
theorem canonical_eq_self_iff : s.canonical = s ↔ s.Tidy := by
  constructor
  · intro h
    have hcanonical := isCanonical_canonical s
    rw [h] at hcanonical
    exact hcanonical.tidy
  · intro h
    exact canonical_eq_self h.isCanonical

theorem tidy_union (s t : CharSet) : (s.union t).Tidy :=
  (isCanonical_union s t).tidy

theorem tidy_difference (s t : CharSet) : (s.difference t).Tidy :=
  (isCanonical_difference s t).tidy

/-! ### Members -/

theorem contains_eq_iff : s.contains cp = t.contains cp ↔ (cp ∈ s ↔ cp ∈ t) := by
  rw [Bool.eq_iff_iff, contains_iff_mem, contains_iff_mem]

theorem contains_canonical (s : CharSet) (cp : Nat) : s.canonical.contains cp = s.contains cp :=
  contains_eq_iff.mpr mem_canonical

theorem contains_union (s t : CharSet) (cp : Nat) :
    (s.union t).contains cp = (s.contains cp || t.contains cp) := by
  rw [Bool.eq_iff_iff, Bool.or_eq_true]
  simp only [contains_iff_mem, mem_union]

theorem contains_difference (s t : CharSet) (cp : Nat) :
    (s.difference t).contains cp = (s.contains cp && !t.contains cp) := by
  rw [Bool.eq_iff_iff, Bool.and_eq_true, Bool.not_eq_true', ← Bool.not_eq_true]
  simp only [contains_iff_mem, mem_difference]

theorem contains_complement (hcp : cp < alphabetSize) :
    s.complement.contains cp = !s.contains cp := by
  rw [Bool.eq_iff_iff, Bool.not_eq_true', ← Bool.not_eq_true]
  simp only [contains_iff_mem, mem_complement, hcp, true_and]

/-- Two sets have the same tidy form when they have the same members. -/
theorem canonical_eq_iff :
    s.canonical = t.canonical ↔ ∀ cp < alphabetSize, s.contains cp = t.contains cp := by
  constructor
  · intro h cp _
    rw [← contains_canonical s, h, contains_canonical]
  · intro h
    exact canonical_eq_of_mem_iff (mem_iff_of_lt fun cp hcp ↦ contains_eq_iff.mp (h cp hcp))

theorem isEmpty_iff : s.isEmpty = true ↔ ∀ cp, s.contains cp = false := by
  rw [isEmpty, List.isEmpty_iff]
  constructor
  · intro hnil cp
    rw [contains, hnil, List.any_nil]
  · intro hnone
    by_contra hne
    obtain ⟨cp, hcp⟩ := exists_mem_of_ranges_ne_nil hne
    exact absurd (contains_iff_mem.mpr hcp) (Bool.eq_false_iff.mp (hnone cp))

theorem isFull_iff : s.isFull = true ↔ ∀ cp < alphabetSize, s.contains cp = true := by
  have hfull : full.canonical = full := rfl
  rw [isFull, decide_eq_true_eq, ← hfull, canonical_eq_iff]
  refine forall₂_congr fun cp hcp ↦ ?_
  rw [contains_iff_mem.mpr (mem_full.mpr hcp)]

/-! ### Counting members -/

/-- In a list of separated ranges the code points of a kind can be counted range by range. -/
theorem card_filter_covers (P : Nat → Prop) [DecidablePred P] (h : Separated rs) :
    ((Finset.range alphabetSize).filter fun cp ↦ P cp ∧ Covers rs cp).card =
      (rs.map fun r ↦ ((Finset.Ico r.start r.stop).filter P).card).sum := by
  induction rs with
  | nil => simp
  | cons r rs ih =>
    have hsplit : ((Finset.range alphabetSize).filter fun cp ↦ P cp ∧ Covers (r :: rs) cp) =
        (Finset.Ico r.start r.stop).filter P ∪
          (Finset.range alphabetSize).filter fun cp ↦ P cp ∧ Covers rs cp := by
      ext cp
      have hstop := r.stop_le
      simp only [Finset.mem_union, Finset.mem_filter, Finset.mem_range, Finset.mem_Ico, covers_cons,
        CodeRange.mem_def]
      constructor
      · rintro ⟨hcp, hP, hr | hrs⟩
        · exact Or.inl ⟨hr, hP⟩
        · exact Or.inr ⟨hcp, hP, hrs⟩
      · rintro (⟨hr, hP⟩ | ⟨hcp, hP, hrs⟩)
        · exact ⟨Nat.lt_of_lt_of_le hr.2 hstop, hP, Or.inl hr⟩
        · exact ⟨hcp, hP, Or.inr hrs⟩
    have hdisjoint : Disjoint ((Finset.Ico r.start r.stop).filter P)
        ((Finset.range alphabetSize).filter fun cp ↦ P cp ∧ Covers rs cp) := by
      rw [Finset.disjoint_left]
      intro cp hr hrs
      rw [Finset.mem_filter, Finset.mem_Ico] at hr
      exact h.not_mem_of_covers (Finset.mem_filter.mp hrs).2.2 hr.1
    rw [hsplit, Finset.card_union_of_disjoint hdisjoint, ih h.tail, List.map_cons, List.sum_cons]

/-- The code points of separated ranges, as many as the ranges have together. -/
theorem sum_size (h : Separated rs) :
    (rs.map CodeRange.size).sum = ((Finset.range alphabetSize).filter (Covers rs)).card := by
  have hcount := card_filter_covers (fun _ ↦ True) h
  simp only [true_and, Finset.filter_true, Nat.card_Ico] at hcount
  exact hcount.symm

theorem sum_size_le (h : Separated rs) : (rs.map CodeRange.size).sum ≤ alphabetSize := by
  rw [sum_size h]
  exact (Finset.card_filter_le _ _).trans_eq (Finset.card_range alphabetSize)

theorem size_eq_sum (s : CharSet) : s.size = (s.canonical.ranges.map CodeRange.size).sum := by
  rw [List.sum_eq_foldr, List.foldr_map]
  rfl

theorem size_eq_card (s : CharSet) :
    s.size = ((Finset.range alphabetSize).filter fun cp ↦ s.contains cp = true).card := by
  rw [size_eq_sum, sum_size (isCanonical_canonical s)]
  refine congrArg Finset.card (Finset.filter_congr fun cp _ ↦ ?_)
  rw [contains_iff_mem, ← mem_iff_covers, mem_canonical]

/-! ### The laws together -/

/-- Union, difference and complement have the members that their names say, their answers are tidy
and so are left alone by joining, and a double complement is the tidy form. -/
theorem operations_exact_and_tidy (s t : CharSet) :
    (∀ cp < alphabetSize,
      (s.union t).contains cp = (s.contains cp || t.contains cp) ∧
      (s.difference t).contains cp = (s.contains cp && !t.contains cp) ∧
      s.complement.contains cp = !s.contains cp) ∧
    (∀ u ∈ [s.union t, s.difference t, s.complement], u.Tidy ∧ u.canonical = u) ∧
    s.complement.complement = s.canonical := by
  refine ⟨fun cp hcp ↦ ?_, ?_, complement_complement s⟩
  · exact ⟨contains_union s t cp, contains_difference s t cp, contains_complement hcp⟩
  · have htidy : ∀ u ∈ [s.union t, s.difference t, s.complement], u.Tidy := by
      simp only [List.forall_mem_cons, List.not_mem_nil, false_implies, implies_true, and_true]
      exact ⟨tidy_union s t, tidy_difference s t, tidy_difference full s⟩
    exact fun u hu ↦ ⟨htidy u hu, canonical_eq_self_iff.mpr (htidy u hu)⟩

/-- Joining the ranges of a set keeps its members, makes it tidy, and makes sets with the same
members equal; the size of a set is the number of its members, and no partial sum on the way there
is greater than the alphabet; the tests for the empty and the full set answer for the members. -/
theorem canonical_form_of_members (s : CharSet) :
    (∀ cp, s.canonical.contains cp = s.contains cp) ∧ s.canonical.Tidy ∧
    s.canonical.canonical = s.canonical ∧
    (∀ t : CharSet,
      s.canonical = t.canonical ↔ ∀ cp < alphabetSize, s.contains cp = t.contains cp) ∧
    s.size = ((Finset.range alphabetSize).filter fun cp ↦ s.contains cp = true).card ∧
    s.size ≤ alphabetSize ∧
    (∀ k, ((s.canonical.ranges.take k).map CodeRange.size).sum ≤ alphabetSize) ∧
    (s.isFull = true ↔ ∀ cp < alphabetSize, s.contains cp = true) ∧
    (s.isEmpty = true ↔ ∀ cp, s.contains cp = false) := by
  have hcanonical := isCanonical_canonical s
  have htidy := hcanonical.tidy
  refine ⟨contains_canonical s, htidy, canonical_eq_self_iff.mpr htidy, fun t ↦ canonical_eq_iff,
    size_eq_card s, ?_, fun k ↦ ?_, isFull_iff, isEmpty_iff⟩
  · rw [size_eq_sum]
    exact sum_size_le hcanonical
  · exact sum_size_le (List.Pairwise.sublist (List.take_sublist k _) hcanonical)

end CharSet

end SignalRegex
