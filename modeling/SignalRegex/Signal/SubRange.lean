import SignalRegex.CharSet.Basic

/-!
Ranges that stay inside one block of sixty-four code points.

A code point has a block number and an offset. One comparator tests a block number and an interval
of offsets, so the price of a set is the number of pieces it falls into when it is cut at the block
boundaries.
-/

set_option autoImplicit false

namespace SignalRegex

def blockSize : Nat := 64

/-- The greatest offset inside a block. -/
def lastOffset : Nat := 63

/-- How many blocks the alphabet has. -/
def blockCount : Nat := 32768

/-- The top three bits of a code point are decoded into five lines, so the code points from here on
belong to no block that a comparator can see. -/
def testableLimit : Nat := 0x140000

/-- The offsets from `low` to `high` of one block, both included. -/
structure SubRange where
  block : Nat
  low : Nat
  high : Nat
deriving DecidableEq, Repr

/-- A subrange outside the alphabet or without offsets. -/
structure SubRangeError where
  block : Nat
  low : Nat
  high : Nat
deriving DecidableEq, Repr

namespace SubRangeError

def message (e : SubRangeError) : String :=
  s!"subrange [{e.low}, {e.high}] of block {e.block} is out of bounds"

end SubRangeError

namespace SubRange

/-- The block exists and the offsets are an interval inside it. -/
def InBounds (s : SubRange) : Prop :=
  s.block < blockCount ∧ s.low ≤ s.high ∧ s.high ≤ lastOffset

instance (s : SubRange) : Decidable s.InBounds :=
  inferInstanceAs (Decidable (_ ∧ _))

def ofOffsets (block low high : Nat) : Except SubRangeError SubRange :=
  if InBounds ⟨block, low, high⟩ then .ok ⟨block, low, high⟩ else .error ⟨block, low, high⟩

/-- All offsets of a block. -/
def whole (block : Nat) : Except SubRangeError SubRange :=
  ofOffsets block 0 lastOffset

def firstCodePoint (s : SubRange) : Nat :=
  s.block * blockSize + s.low

def lastCodePoint (s : SubRange) : Nat :=
  s.block * blockSize + s.high

/-- The code points of the subrange; none when it is not a range of the alphabet. -/
def charset (s : SubRange) : CharSet :=
  match CodeRange.inclusive s.firstCodePoint s.lastCodePoint with
  | .ok r => .ofRange r
  | .error _ => .empty

/-- Whether the comparator of the subrange answers for a code point. -/
def contains (s : SubRange) (cp : Nat) : Bool :=
  cp < testableLimit && cp / blockSize == s.block &&
    s.low ≤ cp % blockSize && cp % blockSize ≤ s.high

/-- The pieces of one range: a single piece inside one block, or the end of the first block, the
blocks between, and the start of the last block. -/
def ofRange (r : CodeRange) : List SubRange :=
  let first := r.start / blockSize
  let last := r.last / blockSize
  if first = last then [⟨first, r.start % blockSize, r.last % blockSize⟩]
  else
    ⟨first, r.start % blockSize, lastOffset⟩ ::
      ((List.range' (first + 1) (last - first - 1)).map (⟨·, 0, lastOffset⟩) ++
        [⟨last, 0, r.last % blockSize⟩])

/-- The pieces of a set, in order. -/
def decompose (s : CharSet) : List SubRange :=
  s.canonical.ranges.flatMap ofRange

/-- How many pieces a set falls into. -/
def count (s : CharSet) : Nat :=
  s.canonical.ranges.foldr (fun r n ↦ r.last / blockSize - r.start / blockSize + 1 + n) 0

/-- The letter `b` and the block in octal, then `f` and the low offset unless it is the first of
the block, and `t` and the high offset unless it is the last. -/
def name (s : SubRange) : String :=
  "b" ++ Text.octal 5 s.block ++
    (if s.low > 0 then "f" ++ Text.octal 2 s.low else "") ++
    (if s.high < lastOffset then "t" ++ Text.octal 2 s.high else "")

/-- By block, then by low offset, then by high offset. -/
instance : Ord SubRange :=
  ⟨fun s t ↦
    (compare s.block t.block).then ((compare s.low t.low).then (compare s.high t.high))⟩

end SubRange

end SignalRegex
