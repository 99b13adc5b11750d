import SignalRegex.Text.Numeral

/-!
Half-open ranges of code points over an alphabet of twenty-one bits.

A range is never empty and never leaves the alphabet; bounds that break either rule are refused
with the bounds themselves. Ranges are ordered by start and then by stop.
-/

set_option autoImplicit false

namespace SignalRegex

/-- The code points are the numbers below this bound, all that twenty-one bits can hold. -/
def alphabetSize : Nat := 0x200000

/-- The largest number of a thirty-two bit word. -/
def maxWord : Nat := 0xFFFFFFFF

/-- The next word, except that the largest word is its own successor. -/
def nextWord (n : Nat) : Nat :=
  min (n + 1) maxWord

/-- Bounds that do not make a range. -/
structure RangeError where
  start : Nat
  stop : Nat
deriving DecidableEq, Repr

namespace RangeError

def message (e : RangeError) : String :=
  "invalid code point range [0x" ++ Text.hex e.start ++ ", 0x" ++ Text.hex e.stop ++ ")"

end RangeError

/-- The code points from `start` up to but not including `stop`. -/
structure CodeRange where
  start : Nat
  stop : Nat
  start_lt_stop : start < stop
  stop_le : stop ≤ alphabetSize
deriving DecidableEq

namespace CodeRange

def ofBounds (start stop : Nat) : Except RangeError CodeRange :=
  if h : start < stop ∧ stop ≤ alphabetSize then
    .ok ⟨start, stop, h.1, h.2⟩
  else
    .error ⟨start, stop⟩

/-- The range of one code point. -/
def single (cp : Nat) : Except RangeError CodeRange :=
  ofBounds cp (nextWord cp)

/-- The range from `first` to `last`, both included. -/
def inclusive (first last : Nat) : Except RangeError CodeRange :=
  ofBounds first (nextWord last)

/-- Every code point. -/
def full : CodeRange :=
  ⟨0, alphabetSize, by decide, Nat.le_refl _⟩

/-- The range of one character: characters stay below `0x110000`. -/
def ofChar (c : Char) : CodeRange where
  start := c.toNat
  stop := c.toNat + 1
  start_lt_stop := Nat.lt_succ_self _
  stop_le := by
    have h := c.valid
    have hn : c.toNat = c.val.toNat := rfl
    simp only [UInt32.isValidChar, Nat.isValidChar] at h
    simp only [alphabetSize]
    omega

/-- The greatest code point of the range. -/
def last (r : CodeRange) : Nat :=
  r.stop - 1

/-- How many code points the range has. -/
def size (r : CodeRange) : Nat :=
  r.stop - r.start

instance : Membership Nat CodeRange :=
  ⟨fun r cp ↦ r.start ≤ cp ∧ cp < r.stop⟩

theorem mem_def {cp : Nat} {r : CodeRange} : cp ∈ r ↔ r.start ≤ cp ∧ cp < r.stop :=
  Iff.rfl

instance (cp : Nat) (r : CodeRange) : Decidable (cp ∈ r) :=
  inferInstanceAs (Decidable (_ ∧ _))

/-- The range that starts like `r` and reaches as far as either of the two. -/
def extend (r s : CodeRange) : CodeRange :=
  ⟨r.start, max r.stop s.stop, by have := r.start_lt_stop; omega,
    by have := r.stop_le; have := s.stop_le; omega⟩

theorem start_le (r : CodeRange) : r.start ≤ alphabetSize :=
  Nat.le_trans (Nat.le_of_lt r.start_lt_stop) r.stop_le

/-- The range with the given bounds, or none where that would be empty. -/
def between (start stop : Nat) (hstop : stop ≤ alphabetSize) : List CodeRange :=
  if h : start < stop then [⟨start, stop, h, hstop⟩] else []

theorem mem_between {x : CodeRange} {start stop : Nat} {hstop : stop ≤ alphabetSize} :
    x ∈ between start stop hstop ↔ x.start = start ∧ x.stop = stop := by
  unfold between
  split
  · rw [List.mem_singleton]
    exact ⟨fun hx ↦ hx ▸ ⟨rfl, rfl⟩, fun ⟨hstart, hend⟩ ↦ by cases x; simp_all⟩
  · have hx := x.start_lt_stop
    simp only [List.not_mem_nil, false_iff]
    omega

theorem pairwise_between {start stop : Nat} {hstop : stop ≤ alphabetSize}
    {P : CodeRange → CodeRange → Prop} : (between start stop hstop).Pairwise P := by
  unfold between
  split
  · exact List.pairwise_singleton _ _
  · exact .nil

/-- By start, then by stop. -/
instance : LE CodeRange :=
  ⟨fun r s ↦ r.start < s.start ∨ r.start = s.start ∧ r.stop ≤ s.stop⟩

theorem le_def {r s : CodeRange} :
    r ≤ s ↔ r.start < s.start ∨ r.start = s.start ∧ r.stop ≤ s.stop :=
  Iff.rfl

instance (r s : CodeRange) : Decidable (r ≤ s) :=
  inferInstanceAs (Decidable (_ ∨ _))

theorem le_trans {r s t : CodeRange} (hrs : r ≤ s) (hst : s ≤ t) : r ≤ t := by
  rw [le_def] at *
  omega

theorem le_total (r s : CodeRange) : r ≤ s ∨ s ≤ r := by
  rw [le_def, le_def]
  omega

/-- By start, then by stop. -/
instance : Ord CodeRange :=
  ⟨fun r s ↦ (compare r.start s.start).then (compare r.stop s.stop)⟩

end CodeRange

end SignalRegex
