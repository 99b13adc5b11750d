import SignalRegex.CharSet.Printer

/-!
Patterns as trees.
-/

set_option autoImplicit false

namespace SignalRegex

/-- A pattern. A leaf stands for one code point of its set. -/
inductive Regex where
  | set (s : CharSet)
  | star (r : Regex)
  | plus (r : Regex)
  | maybe (r : Regex)
  | concat (rs : List Regex)
  | alternate (rs : List Regex)

namespace Regex

/-- The patterns one after the other; a single one is itself. -/
def ofSequence : List Regex → Regex
  | [r] => r
  | rs => concat rs

/-- A choice between the patterns; a single one is itself. -/
def ofChoices : List Regex → Regex
  | [r] => r
  | rs => alternate rs

mutual

/-- How many nodes the tree has. -/
def size : Regex → Nat
  | set _ => 1
  | star r | plus r | maybe r => 1 + r.size
  | concat rs | alternate rs => 1 + sizeAll rs

def sizeAll : List Regex → Nat
  | [] => 0
  | r :: rs => r.size + sizeAll rs

end

mutual

/-- The sets at the leaves, from left to right. -/
def leaves : Regex → List CharSet
  | set s => [s]
  | star r | plus r | maybe r => r.leaves
  | concat rs | alternate rs => leavesAll rs

def leavesAll : List Regex → List CharSet
  | [] => []
  | r :: rs => r.leaves ++ leavesAll rs

end

mutual

/-- The tree as text, with a word for each inner node. -/
def print : Regex → String
  | set s => s.print
  | star r => "Star(" ++ r.print ++ ")"
  | plus r => "Plus(" ++ r.print ++ ")"
  | maybe r => "Maybe(" ++ r.print ++ ")"
  | concat rs => "Concatenate(" ++ ", ".intercalate (printAll rs) ++ ")"
  | alternate rs => "Alternate(" ++ ", ".intercalate (printAll rs) ++ ")"

def printAll : List Regex → List String
  | [] => []
  | r :: rs => r.print :: printAll rs

end

end Regex

end SignalRegex
