import Mathlib.Tactic.SplitIfs
import SignalRegex.CharSet.Basic

/-!
Membership in sets of code points, through every operation on their range lists.

Joining ranges keeps the code points (`mem_canonical`), union and complement are the union and the
complement in the alphabet (`mem_union`, `mem_complement`), and both rest on what joining and
cutting do to a list of ranges (`covers_fuseInto`, `covers_sweep`).
-/

set_option autoImplicit false

namespace SignalRegex

namespace CodeRange

/-- Some range of the list has the code point. -/
def Covers (ranges : List CodeRange) (cp : Nat) : Prop :=
  ∃ r ∈ ranges, cp ∈ r

instance (ranges : List CodeRange) : DecidablePred (Covers ranges) :=
  fun cp ↦ inferInstanceAs (Decidable (∃ r ∈ ranges, cp ∈ r))

@[simp] theorem covers_nil (cp : Nat) : ¬ Covers [] cp := by
  simp [Covers]

@[simp] theorem covers_cons {r : CodeRange} {rs : List CodeRange} {cp : Nat} :
    Covers (r :: rs) cp ↔ cp ∈ r ∨ Covers rs cp := by
  simp [Covers]

@[simp] theorem covers_append {rs ss : List CodeRange} {cp : Nat} :
    Covers (rs ++ ss) cp ↔ Covers rs cp ∨ Covers ss cp := by
  simp only [Covers, List.mem_append, or_and_right, exists_or]

theorem last_add_one (r : CodeRange) : r.last + 1 = r.stop :=
  Nat.sub_add_cancel (Nat.zero_lt_of_lt r.start_lt_stop)

theorem start_lt_alphabetSize (r : CodeRange) : r.start < alphabetSize :=
  Nat.lt_of_lt_of_le r.start_lt_stop r.stop_le

theorem last_lt_alphabetSize (r : CodeRange) : r.last < alphabetSize := by
  rw [← Nat.succ_le_iff, Nat.succ_eq_add_one, last_add_one]
  exact r.stop_le

theorem inclusive_eq_ok {first last : Nat} (hle : first ≤ last) (h : last < alphabetSize) :
    inclusive first last = .ok ⟨first, last + 1, Nat.lt_succ_of_le hle, h⟩ := by
  have hnext : nextWord last = last + 1 := by
    unfold nextWord maxWord
    unfold alphabetSize at h
    omega
  rw [inclusive, ofBounds]
  simp only [hnext]
  rw [dif_pos ⟨Nat.lt_succ_of_le hle, h⟩]

theorem exists_inclusive {first last : Nat} (hle : first ≤ last) (h : last < alphabetSize) :
    ∃ r, inclusive first last = .ok r ∧ ∀ cp, cp ∈ r ↔ first ≤ cp ∧ cp ≤ last := by
  refine ⟨_, inclusive_eq_ok hle h, fun cp ↦ ?_⟩
  rw [mem_def]
  exact and_congr_right fun _ ↦ Nat.lt_succ_iff

theorem exists_single {cp : Nat} (h : cp < alphabetSize) :
    ∃ r, single cp = .ok r ∧ ∀ n, n ∈ r ↔ n = cp := by
  obtain ⟨r, hr, hmem⟩ := exists_inclusive (Nat.le_refl cp) h
  refine ⟨r, hr, fun n ↦ ?_⟩
  rw [hmem]
  omega

theorem mem_extend {r s : CodeRange} {cp : Nat} (hstart : r.start ≤ s.start)
    (hstop : s.start ≤ r.stop) : cp ∈ r.extend s ↔ cp ∈ r ∨ cp ∈ s := by
  have hr := r.start_lt_stop
  have hs := s.start_lt_stop
  simp only [mem_def, extend]
  omega

theorem covers_between {start stop cp : Nat} {hstop : stop ≤ alphabetSize} :
    Covers (between start stop hstop) cp ↔ start ≤ cp ∧ cp < stop := by
  constructor
  · rintro ⟨x, hx, hcp⟩
    obtain ⟨rfl, rfl⟩ := mem_between.mp hx
    exact hcp
  · rintro ⟨hle, hlt⟩
    exact ⟨⟨start, stop, Nat.lt_of_le_of_lt hle hlt, hstop⟩, mem_between.mpr ⟨rfl, rfl⟩, hle, hlt⟩

end CodeRange

namespace CharSet

open CodeRange

theorem mem_iff_covers {s : CharSet} {cp : Nat} : cp ∈ s ↔ Covers s.ranges cp :=
  Iff.rfl

theorem mem_full {cp : Nat} : cp ∈ full ↔ cp < alphabetSize := by
  rw [mem_iff_covers, full, ofRange, covers_cons, CodeRange.mem_def]
  simp [CodeRange.full]

theorem exists_mem_of_ranges_ne_nil {s : CharSet} (h : s.ranges ≠ []) : ∃ cp, cp ∈ s := by
  obtain ⟨r, hr⟩ := List.exists_mem_of_ne_nil s.ranges h
  exact ⟨r.start, r, hr, Nat.le_refl _, r.start_lt_stop⟩

theorem ranges_ne_nil_of_mem {s : CharSet} {cp : Nat} (h : cp ∈ s) : s.ranges ≠ [] := by
  obtain ⟨r, hr, _⟩ := h
  exact List.ne_nil_of_mem hr

@[simp] theorem mem_ofRanges {ranges : List CodeRange} {cp : Nat} :
    cp ∈ ofRanges ranges ↔ Covers ranges cp := by
  have hperm := List.mergeSort_perm ranges fun r s ↦ decide (r ≤ s)
  constructor
  · rintro ⟨r, hr, hcp⟩
    exact ⟨r, hperm.mem_iff.mp hr, hcp⟩
  · rintro ⟨r, hr, hcp⟩
    exact ⟨r, hperm.mem_iff.mpr hr, hcp⟩

/-- Joining the ranges of a sorted list keeps its code points. Sortedness is what makes the joined
range start where the first of the two did. -/
theorem covers_fuseInto {r : CodeRange} {rest : List CodeRange} {cp : Nat}
    (hsorted : (r :: rest).Pairwise (· ≤ ·)) :
    Covers (fuseInto r rest) cp ↔ cp ∈ r ∨ Covers rest cp := by
  induction rest generalizing r with
  | nil => simp [fuseInto]
  | cons s rest ih =>
    obtain ⟨hr, htail⟩ := List.pairwise_cons.mp hsorted
    have hs := le_def.mp (hr s List.mem_cons_self)
    unfold fuseInto
    split_ifs with hjoin
    · have hext : (r.extend s :: rest).Pairwise (· ≤ ·) := by
        refine List.Pairwise.cons (fun x hx ↦ ?_) htail.tail
        have hrx := le_def.mp (hr x (List.mem_cons_of_mem _ hx))
        have hsx := le_def.mp (List.rel_of_pairwise_cons htail hx)
        rw [le_def]
        simp only [extend]
        omega
      rw [ih hext, mem_extend (by omega) hjoin, covers_cons, or_assoc]
    · rw [covers_cons, ih htail, covers_cons]

@[simp] theorem mem_canonical {s : CharSet} {cp : Nat} : cp ∈ s.canonical ↔ cp ∈ s := by
  change Covers (fuse s.ranges) cp ↔ Covers s.ranges cp
  have hsorted := s.sorted
  cases hranges : s.ranges with
  | nil => rfl
  | cons r rest =>
    rw [hranges] at hsorted
    change Covers (fuseInto r rest) cp ↔ _
    rw [covers_fuseInto hsorted, covers_cons]

theorem fuse_eq_self {ranges : List CodeRange} (h : Separated ranges) : fuse ranges = ranges := by
  induction ranges with
  | nil => rfl
  | cons r rest ih =>
    cases rest with
    | nil => rfl
    | cons s rest =>
      have hgap := List.rel_of_pairwise_cons h List.mem_cons_self
      change fuseInto r (s :: rest) = r :: s :: rest
      rw [fuseInto, if_neg (Nat.not_le.mpr hgap)]
      exact congrArg (r :: ·) (ih h.tail)

theorem canonical_eq_self {s : CharSet} (h : s.IsCanonical) : s.canonical = s := by
  cases s with
  | mk ranges sorted =>
    simp only [canonical, mk.injEq]
    exact fuse_eq_self h

@[simp] theorem mem_union {s t : CharSet} {cp : Nat} : cp ∈ s.union t ↔ cp ∈ s ∨ cp ∈ t := by
  rw [union, mem_canonical, mem_ofRanges, covers_append]
  rfl

theorem Separated.start_le {r x : CodeRange} {rs : List CodeRange} (h : Separated (r :: rs))
    (hx : x ∈ r :: rs) : r.start ≤ x.start := by
  rcases List.mem_cons.mp hx with rfl | hx
  · exact Nat.le_refl _
  · have hstop := List.rel_of_pairwise_cons h hx
    have hr := r.start_lt_stop
    omega

theorem Separated.not_covers_of_lt {r : CodeRange} {rs : List CodeRange} {cp : Nat}
    (h : Separated (r :: rs)) (hcp : cp < r.start) : ¬ Covers (r :: rs) cp := by
  rintro ⟨x, hx, hin⟩
  exact Nat.not_lt.mpr (Nat.le_trans (h.start_le hx) hin.1) hcp

theorem Separated.not_covers_stop {r : CodeRange} {rs : List CodeRange}
    (h : Separated (r :: rs)) : ¬ Covers (r :: rs) r.stop := by
  rintro ⟨x, hx, hin⟩
  rcases List.mem_cons.mp hx with rfl | hx
  · exact Nat.lt_irrefl _ hin.2
  · exact Nat.not_le.mpr (List.rel_of_pairwise_cons h hx) hin.1

theorem Separated.not_mem_of_covers {r : CodeRange} {rs : List CodeRange} {cp : Nat}
    (h : Separated (r :: rs)) (hcp : Covers rs cp) : cp ∉ r := by
  obtain ⟨x, hx, hin⟩ := hcp
  have hgap := List.rel_of_pairwise_cons h hx
  exact fun hr ↦ Nat.lt_asymm hr.2 (Nat.lt_of_lt_of_le hgap hin.1)

theorem Separated.start_le_of_covers {r s : CodeRange} {rs ss : List CodeRange}
    (hs : Separated (s :: ss)) (h : ∀ cp, Covers (r :: rs) cp → Covers (s :: ss) cp) :
    s.start ≤ r.start := by
  refine Nat.le_of_not_lt fun hlt ↦ hs.not_covers_of_lt hlt (h _ ?_)
  exact ⟨r, List.mem_cons_self, Nat.le_refl _, r.start_lt_stop⟩

/-- The first range goes on as long as its code points are covered. -/
theorem Separated.stop_le_of_covers {r s : CodeRange} {rs ss : List CodeRange}
    (hs : Separated (s :: ss)) (h : ∀ cp, Covers (r :: rs) cp → Covers (s :: ss) cp)
    (hstart : r.start = s.start) : r.stop ≤ s.stop := by
  refine Nat.le_of_not_lt fun hlt ↦ hs.not_covers_stop (h _ ⟨r, List.mem_cons_self, ?_, hlt⟩)
  exact Nat.le_of_lt (hstart ▸ s.start_lt_stop)

/-- Two lists with gaps between their ranges that cover the same code points are the same list. -/
theorem Separated.eq_of_covers_iff {rs ss : List CodeRange} (hr : Separated rs)
    (hs : Separated ss) (h : ∀ cp, Covers rs cp ↔ Covers ss cp) : rs = ss := by
  induction rs generalizing ss with
  | nil =>
    cases ss with
    | nil => rfl
    | cons s ss =>
      exact absurd ((h s.start).mpr ⟨s, List.mem_cons_self, Nat.le_refl _, s.start_lt_stop⟩)
        (covers_nil _)
  | cons r rs ih =>
    cases ss with
    | nil =>
      exact absurd ((h r.start).mp ⟨r, List.mem_cons_self, Nat.le_refl _, r.start_lt_stop⟩)
        (covers_nil _)
    | cons s ss =>
      have hforward := fun cp ↦ (h cp).mp
      have hback := fun cp ↦ (h cp).mpr
      have hstart : r.start = s.start :=
        Nat.le_antisymm (hr.start_le_of_covers hback) (hs.start_le_of_covers hforward)
      have hstop : r.stop = s.stop := Nat.le_antisymm (hs.stop_le_of_covers hforward hstart)
        (hr.stop_le_of_covers hback hstart.symm)
      obtain rfl : r = s := by
        cases r
        cases s
        cases hstart
        cases hstop
        rfl
      have htail : ∀ cp, Covers rs cp ↔ Covers ss cp := by
        intro cp
        have hcp := h cp
        rw [covers_cons, covers_cons] at hcp
        constructor
        · intro hin
          exact (hcp.mp (Or.inr hin)).resolve_left (hr.not_mem_of_covers hin)
        · intro hin
          exact (hcp.mpr (Or.inr hin)).resolve_left (hs.not_mem_of_covers hin)
      exact congrArg (r :: ·) (ih hr.tail hs.tail htail)

/-- Canonical sets with the same members are equal. -/
theorem IsCanonical.eq_of_mem_iff {s t : CharSet} (hs : s.IsCanonical) (ht : t.IsCanonical)
    (h : ∀ cp, cp ∈ s ↔ cp ∈ t) : s = t := by
  cases s
  cases t
  simpa only [mk.injEq] using Separated.eq_of_covers_iff hs ht h

/-- What is left of a range from `start` on are its code points from there on that are in no cut. -/
theorem covers_trim {r : CodeRange} {start cp : Nat} {cs : List CodeRange} (hc : Separated cs) :
    Covers (trim r start cs) cp ↔ start ≤ cp ∧ cp < r.stop ∧ ¬ Covers cs cp := by
  induction cs generalizing start with
  | nil => simp [trim, covers_between]
  | cons c cs ih =>
    have hbefore : cp < c.start → ¬ Covers (c :: cs) cp := hc.not_covers_of_lt
    have hlt := c.start_lt_stop
    rw [covers_cons, CodeRange.mem_def] at hbefore
    rw [covers_cons, CodeRange.mem_def, trim]
    split_ifs with hbehind hdone
    · rw [List.append_nil, covers_between]
      grind
    · rw [covers_append, covers_between, ih hc.tail]
      grind
    · rw [covers_between]
      grind

/-- Passing over the cuts that end no later than `start` leaves out no code point from there on. -/
theorem covers_dropWhile {cs : List CodeRange} {start cp : Nat} (h : start ≤ cp) :
    Covers (cs.dropWhile fun c ↦ c.stop ≤ start) cp ↔ Covers cs cp := by
  induction cs with
  | nil => rfl
  | cons c cs ih =>
    rw [List.dropWhile_cons]
    split_ifs with hends
    · have hout : cp ∉ c := fun hin ↦ by
        have hlt := hin.2
        have hle := of_decide_eq_true hends
        omega
      rw [ih, covers_cons, or_iff_right hout]
    · rfl

/-- A sweep leaves the code points that lie in no cut. -/
theorem covers_sweep {rs cs : List CodeRange} {cp : Nat} (hr : Separated rs)
    (hc : Separated cs) : Covers (sweep rs cs) cp ↔ Covers rs cp ∧ ¬ Covers cs cp := by
  induction rs generalizing cs with
  | nil => simp [sweep]
  | cons r rs ih =>
    have hleft : Separated (cs.dropWhile fun c ↦ c.stop ≤ r.start) :=
      hc.sublist (List.dropWhile_sublist _)
    rw [sweep, covers_append, covers_trim hleft, ih hr.tail hleft, covers_cons]
    by_cases hstart : r.start ≤ cp
    · rw [covers_dropWhile hstart, CodeRange.mem_def, ← and_assoc, or_and_right]
    · -- the ranges all start behind the code point
      have hout : ¬ Covers (r :: rs) cp := hr.not_covers_of_lt (Nat.lt_of_not_le hstart)
      rw [covers_cons, not_or] at hout
      simp only [hstart, hout, false_and, or_self]

theorem mem_difference {s t : CharSet} {cp : Nat} : cp ∈ s.difference t ↔ cp ∈ s ∧ cp ∉ t := by
  rw [← mem_canonical (s := s), ← mem_canonical (s := t)]
  exact covers_sweep (isCanonical_canonical s) (isCanonical_canonical t)

@[simp] theorem mem_complement {s : CharSet} {cp : Nat} :
    cp ∈ s.complement ↔ cp < alphabetSize ∧ cp ∉ s := by
  rw [complement, mem_difference, mem_full]

theorem lt_alphabetSize_of_mem {s : CharSet} {cp : Nat} (h : cp ∈ s) : cp < alphabetSize := by
  obtain ⟨r, _, hcp⟩ := h
  exact Nat.lt_of_lt_of_le hcp.2 r.stop_le

/-- Sets have no members outside the alphabet, so they need not be compared there. -/
theorem mem_iff_of_lt {s t : CharSet} (h : ∀ cp < alphabetSize, cp ∈ s ↔ cp ∈ t) (cp : Nat) :
    cp ∈ s ↔ cp ∈ t := by
  by_cases hcp : cp < alphabetSize
  · exact h cp hcp
  · exact ⟨fun hmem ↦ absurd (lt_alphabetSize_of_mem hmem) hcp,
      fun hmem ↦ absurd (lt_alphabetSize_of_mem hmem) hcp⟩

theorem canonical_eq_of_mem_iff {s t : CharSet} (h : ∀ cp, cp ∈ s ↔ cp ∈ t) :
    s.canonical = t.canonical :=
  (isCanonical_canonical s).eq_of_mem_iff (isCanonical_canonical t) fun cp ↦ by
    rw [mem_canonical, mem_canonical, h cp]

theorem isCanonical_complement (s : CharSet) : s.complement.IsCanonical :=
  isCanonical_difference full s

theorem complement_eq_of_mem_iff {s t : CharSet} (h : ∀ cp, cp ∈ s ↔ cp ∈ t) :
    s.complement = t.complement :=
  (isCanonical_complement s).eq_of_mem_iff (isCanonical_complement t) fun cp ↦ by
    rw [mem_complement, mem_complement, h cp]

theorem complement_canonical (s : CharSet) : s.canonical.complement = s.complement :=
  complement_eq_of_mem_iff fun _ ↦ mem_canonical

theorem complement_complement (s : CharSet) : s.complement.complement = s.canonical := by
  refine (isCanonical_complement _).eq_of_mem_iff (isCanonical_canonical s) fun cp ↦ ?_
  rw [mem_complement, mem_complement, mem_canonical]
  constructor
  · rintro ⟨hcp, hnot⟩
    exact Classical.byContradiction fun hout ↦ hnot ⟨hcp, hout⟩
  · intro h
    exact ⟨lt_alphabetSize_of_mem h, fun hout ↦ hout.2 h⟩

end CharSet

end SignalRegex
