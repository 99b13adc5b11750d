import SignalRegex.CharSet.Range

/-!
Sets of code points as sorted lists of ranges.

A set keeps the ranges it was given, in order, and two lists may describe the same set; the
canonical form, in which consecutive ranges have a gap between them, is unique. Union, difference
and complement answer in canonical form (`separated_fuse`, `separated_sweep`).
-/

set_option autoImplicit false

namespace SignalRegex

/-- A sorted list of ranges, standing for the code points that lie in one of them. -/
structure CharSet where
  ranges : List CodeRange
  sorted : ranges.Pairwise (· ≤ ·)
deriving DecidableEq

namespace CharSet

/-- Each range ends before the next one starts, with a gap between the two. -/
def Separated (ranges : List CodeRange) : Prop :=
  ranges.Pairwise fun r s ↦ r.stop < s.start

instance (ranges : List CodeRange) : Decidable (Separated ranges) :=
  inferInstanceAs (Decidable (List.Pairwise _ _))

theorem Separated.sorted {ranges : List CodeRange} (h : Separated ranges) :
    ranges.Pairwise (· ≤ ·) :=
  List.Pairwise.imp (fun {r s} hrs ↦ CodeRange.le_def.mpr (by have := r.start_lt_stop; omega)) h

def empty : CharSet :=
  ⟨[], .nil⟩

def ofRange (r : CodeRange) : CharSet :=
  ⟨[r], List.pairwise_singleton _ _⟩

/-- Every code point. -/
def full : CharSet :=
  ofRange .full

/-- The given ranges, sorted and otherwise untouched. -/
def ofRanges (ranges : List CodeRange) : CharSet where
  ranges := ranges.mergeSort fun r s ↦ decide (r ≤ s)
  sorted := by
    have h := @List.pairwise_mergeSort _ (fun r s : CodeRange ↦ decide (r ≤ s))
      (fun r s t hrs hst ↦ decide_eq_true
        (CodeRange.le_trans (of_decide_eq_true hrs) (of_decide_eq_true hst)))
      (fun r s ↦ by simpa using CodeRange.le_total r s) ranges
    exact h.imp of_decide_eq_true

/-- The ranges with the given bounds; the first pair that makes no range is the error. -/
def ofBounds (bounds : List (Nat × Nat)) : Except RangeError CharSet := do
  let ranges ← bounds.mapM fun (start, stop) ↦ CodeRange.ofBounds start stop
  return ofRanges ranges

/-- The set of one code point. -/
def single (cp : Nat) : Except RangeError CharSet :=
  (CodeRange.single cp).map ofRange

instance : Membership Nat CharSet :=
  ⟨fun s cp ↦ ∃ r ∈ s.ranges, cp ∈ r⟩

theorem mem_def {cp : Nat} {s : CharSet} : cp ∈ s ↔ ∃ r ∈ s.ranges, cp ∈ r :=
  Iff.rfl

def contains (s : CharSet) (cp : Nat) : Bool :=
  s.ranges.any fun r ↦ decide (cp ∈ r)

theorem contains_iff_mem {s : CharSet} {cp : Nat} : s.contains cp = true ↔ cp ∈ s := by
  simp only [contains, List.any_eq_true, decide_eq_true_eq, mem_def]

instance (cp : Nat) (s : CharSet) : Decidable (cp ∈ s) :=
  decidable_of_iff _ contains_iff_mem

/-- Joins `r` with the ranges after it that start no later than it ends. -/
def fuseInto (r : CodeRange) : List CodeRange → List CodeRange
  | [] => [r]
  | s :: rest =>
    if s.start ≤ r.stop then fuseInto (r.extend s) rest else r :: fuseInto s rest

/-- Joins overlapping and adjacent ranges of a sorted list. -/
def fuse : List CodeRange → List CodeRange
  | [] => []
  | r :: rest => fuseInto r rest

theorem start_le_of_mem_fuseInto {r x : CodeRange} {rest : List CodeRange}
    (hx : x ∈ fuseInto r rest) : r.start ≤ x.start := by
  induction rest generalizing r with
  | nil =>
    simp only [fuseInto, List.mem_singleton] at hx
    exact hx ▸ Nat.le_refl _
  | cons s rest ih =>
    simp only [fuseInto] at hx
    split at hx
    · have : (r.extend s).start ≤ x.start := ih hx
      exact this
    · have hr := r.start_lt_stop
      rcases List.mem_cons.mp hx with rfl | hx
      · exact Nat.le_refl _
      · have := ih hx
        omega

theorem separated_fuseInto (r : CodeRange) (rest : List CodeRange) :
    Separated (fuseInto r rest) := by
  induction rest generalizing r with
  | nil => exact List.pairwise_singleton _ _
  | cons s rest ih =>
    simp only [fuseInto]
    split
    · exact ih _
    · refine List.Pairwise.cons (fun x hx ↦ ?_) (ih s)
      have := start_le_of_mem_fuseInto hx
      omega

theorem separated_fuse (ranges : List CodeRange) : Separated (fuse ranges) := by
  cases ranges with
  | nil => exact .nil
  | cons r rest => exact separated_fuseInto r rest

/-- The same code points in as few ranges as possible. -/
def canonical (s : CharSet) : CharSet :=
  ⟨fuse s.ranges, (separated_fuse s.ranges).sorted⟩

/-- The characters of a text, in canonical form. -/
def ofChars (cs : List Char) : CharSet :=
  (ofRanges (cs.map CodeRange.ofChar)).canonical

def isEmpty (s : CharSet) : Bool :=
  s.ranges.isEmpty

def isFull (s : CharSet) : Bool :=
  s.canonical = full

/-- How many code points the set has. -/
def size (s : CharSet) : Nat :=
  s.canonical.ranges.foldr (·.size + ·) 0

def union (s t : CharSet) : CharSet :=
  (ofRanges (s.ranges ++ t.ranges)).canonical

/-- What is left of the range from `start` on. The cuts are gone through until one lies behind the
range or nothing of it is left, and `start` moves along to the end of each. -/
def trim (r : CodeRange) (start : Nat) : List CodeRange → List CodeRange
  | [] => CodeRange.between start r.stop r.stop_le
  | c :: cs =>
    if c.start < r.stop then
      CodeRange.between start c.start c.start_le ++
        if r.stop ≤ max start c.stop then [] else trim r (max start c.stop) cs
    else CodeRange.between start r.stop r.stop_le

/-- What is left of the ranges. Each takes up the cuts where the range before has left them, passes
over those that end before it starts, and leaves all others also to the ranges after it. -/
def sweep : List CodeRange → List CodeRange → List CodeRange
  | [], _ => []
  | r :: rs, cs =>
    let cs := cs.dropWhile fun c ↦ c.stop ≤ r.start
    trim r r.start cs ++ sweep rs cs

theorem bounds_of_mem_trim {r x : CodeRange} {start : Nat} {cs : List CodeRange}
    (hx : x ∈ trim r start cs) : start ≤ x.start ∧ x.stop ≤ r.stop := by
  induction cs generalizing start with
  | nil =>
    obtain ⟨rfl, hstop⟩ := CodeRange.mem_between.mp hx
    exact ⟨Nat.le_refl _, Nat.le_of_eq hstop⟩
  | cons c cs ih =>
    simp only [trim] at hx
    split at hx
    · rcases List.mem_append.mp hx with hx | hx
      · obtain ⟨rfl, hstop⟩ := CodeRange.mem_between.mp hx
        omega
      · split at hx
        · exact absurd hx List.not_mem_nil
        · have hbounds := ih hx
          omega
    · obtain ⟨rfl, hstop⟩ := CodeRange.mem_between.mp hx
      exact ⟨Nat.le_refl _, Nat.le_of_eq hstop⟩

theorem separated_trim (r : CodeRange) (start : Nat) (cs : List CodeRange) :
    Separated (trim r start cs) := by
  induction cs generalizing start with
  | nil => exact CodeRange.pairwise_between
  | cons c cs ih =>
    simp only [trim]
    split
    · split
      · rw [List.append_nil]
        exact CodeRange.pairwise_between
      · -- what comes after the cut starts where it ends, so the cut itself is the gap
        refine List.pairwise_append.mpr ⟨CodeRange.pairwise_between, ih _, fun x hx y hy ↦ ?_⟩
        have hstop := (CodeRange.mem_between.mp hx).2
        have hstart := (bounds_of_mem_trim hy).1
        have hc := c.start_lt_stop
        omega
    · exact CodeRange.pairwise_between

theorem exists_start_le_of_mem_sweep {rs cs : List CodeRange} {x : CodeRange}
    (hx : x ∈ sweep rs cs) : ∃ r ∈ rs, r.start ≤ x.start := by
  induction rs generalizing cs with
  | nil => exact absurd hx List.not_mem_nil
  | cons r rs ih =>
    rcases List.mem_append.mp hx with hx | hx
    · exact ⟨r, List.mem_cons_self, (bounds_of_mem_trim hx).1⟩
    · obtain ⟨s, hs, hle⟩ := ih hx
      exact ⟨s, List.mem_cons_of_mem r hs, hle⟩

theorem separated_sweep {rs : List CodeRange} (cs : List CodeRange) (h : Separated rs) :
    Separated (sweep rs cs) := by
  induction rs generalizing cs with
  | nil => exact .nil
  | cons r rs ih =>
    refine List.pairwise_append.mpr ⟨separated_trim .., ih _ h.tail, fun x hx y hy ↦ ?_⟩
    obtain ⟨s, hs, hle⟩ := exists_start_le_of_mem_sweep hy
    have hstop := (bounds_of_mem_trim hx).2
    have hgap := List.rel_of_pairwise_cons h hs
    omega

/-- The code points of `s` that are not in `t`. -/
def difference (s t : CharSet) : CharSet :=
  ⟨sweep s.canonical.ranges t.canonical.ranges, (separated_sweep _ (separated_fuse _)).sorted⟩

/-- The code points that are not in `s`. -/
def complement (s : CharSet) : CharSet :=
  full.difference s

/-- The ranges have gaps between them. -/
def IsCanonical (s : CharSet) : Prop :=
  Separated s.ranges

instance (s : CharSet) : Decidable s.IsCanonical :=
  inferInstanceAs (Decidable (Separated s.ranges))

theorem isCanonical_canonical (s : CharSet) : s.canonical.IsCanonical :=
  separated_fuse s.ranges

theorem isCanonical_union (s t : CharSet) : (s.union t).IsCanonical :=
  isCanonical_canonical _

theorem isCanonical_difference (s t : CharSet) : (s.difference t).IsCanonical :=
  separated_sweep _ (separated_fuse _)

theorem fuseInto_ne_nil (r : CodeRange) (rest : List CodeRange) : fuseInto r rest ≠ [] := by
  induction rest generalizing r with
  | nil => simp [fuseInto]
  | cons s rest ih =>
    unfold fuseInto
    split
    · exact ih _
    · simp

theorem ranges_canonical_ne_nil {s : CharSet} (h : s.ranges ≠ []) : s.canonical.ranges ≠ [] := by
  change fuse s.ranges ≠ []
  cases hs : s.ranges with
  | nil => exact absurd hs h
  | cons r rest => exact fuseInto_ne_nil r rest

theorem ranges_union_ne_nil {s t : CharSet} (h : s.ranges ≠ []) : (s.union t).ranges ≠ [] := by
  refine ranges_canonical_ne_nil fun hnil ↦ h ?_
  have hlength : (s.ranges ++ t.ranges).length = 0 := by
    rw [← (List.mergeSort_perm (s.ranges ++ t.ranges) _).length_eq]
    exact congrArg List.length hnil
  rw [List.length_append] at hlength
  exact List.eq_nil_of_length_eq_zero (by omega)

/-- Range by range; of two lists that agree as far as the shorter goes, the shorter comes first. -/
instance : Ord CharSet :=
  ⟨fun s t ↦ List.compareLex compare s.ranges t.ranges⟩

end CharSet

end SignalRegex
