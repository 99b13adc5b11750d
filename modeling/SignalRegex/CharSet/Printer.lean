import SignalRegex.CharSet.Basic

/-!
Sets as patterns: the text of a set is a pattern that matches one code point of the set.

The empty set is `[]` and the full set a dot. A set that reaches the end of the alphabet is written
as the negation of what it lacks, a single code point without brackets, and a run of three or more
code points as its two ends.
-/

set_option autoImplicit false

namespace SignalRegex

/-- Characters that mean something in a pattern and are written after a backslash. -/
def isReserved (c : Char) : Bool :=
  c ∈ ['[', ']', '\\', '^', '$', '.', '|', '?', '*', '+', '(', ')', '-']

/-- One code point as it stands in a pattern. -/
def printCodePoint (cp : Nat) : List Char :=
  if cp = 0x0A then ['\\', 'n']
  else if cp = 0x0D then ['\\', 'r']
  else if 0x20 ≤ cp ∧ cp ≤ 0x7E then
    if isReserved (Char.ofNat cp) then ['\\', Char.ofNat cp] else [Char.ofNat cp]
  else if cp ≤ 0xFF then '\\' :: 'x' :: Text.fixedHex 2 cp
  else '\\' :: 'u' :: Text.fixedHex 6 cp

namespace CodeRange

/-- One or two code points side by side, or the first and the last with a dash between. -/
def print (r : CodeRange) : List Char :=
  if r.size ≤ 2 then (List.range' r.start r.size).flatMap printCodePoint
  else printCodePoint r.start ++ '-' :: printCodePoint r.last

end CodeRange

namespace CharSet

/-- Whether the set holds the last code point of the alphabet. -/
def reachesEnd (s : CharSet) : Bool :=
  s.ranges.getLast?.any fun r ↦ r.stop == alphabetSize

/-- What stands between the brackets. -/
def printBody (s : CharSet) : List Char :=
  s.ranges.flatMap CodeRange.print

/-- The text of a set that is already canonical. -/
def printCanonical (s : CharSet) : List Char :=
  if s.isEmpty then ['[', ']']
  else if s = full then ['.']
  else if s.reachesEnd then '[' :: '^' :: s.complement.printBody ++ [']']
  else if s.size = 1 then s.printBody
  else '[' :: s.printBody ++ [']']

/-- The set as a pattern; it depends on the code points alone, not on how they are cut up. -/
def print (s : CharSet) : String :=
  String.ofList s.canonical.printCanonical

end CharSet

end SignalRegex
