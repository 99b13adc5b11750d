import SignalRegex.CompileError
import SignalRegex.Pattern.Token

/-!
Literals and bracketed classes.

Inside brackets every token is an item: a dash, a shorthand class, or one code point. A closing
bracket ends the class unless it is the first item. Three items with a dash in the middle are a
range, found greedily from the left; any other dash stands for itself.
-/

set_option autoImplicit false

namespace SignalRegex

namespace Token

/-- The code point of an escaped character: seven letters name control characters, any other
character stands for itself. -/
def escapedCodePoint : Char → Nat
  | 'a' => 0x07
  | 'b' => 0x08
  | 't' => 0x09
  | 'n' => 0x0A
  | 'v' => 0x0B
  | 'f' => 0x0C
  | 'r' => 0x0D
  | c => c.toNat

/-- The code point a token stands for where it is taken literally. -/
def literal (t : Token) : Except CompileError Nat :=
  match t.kind with
  | .hexEscape | .unicodeEscape =>
    match Text.readHex? (t.more.drop 1) with
    | none => .error (.malformed t.start .invalidEscape)
    | some cp =>
      if cp < alphabetSize then .ok cp else .error (.malformed t.start .codePointOutOfRange)
  | .escape =>
    match t.more with
    | [] => .error (.malformed t.start .incompleteEscape)
    | c :: _ => .ok (escapedCodePoint c)
  | .incomplete => .error (.malformed t.start .incompleteEscape)
  | _ => .ok t.first.toNat

end Token

/-- An item of a bracketed class, with its place. -/
inductive ClassItem where
  | char (cp : Nat) (position : Nat)
  | dash (position : Nat)
  | set (s : CharSet) (position : Nat)
deriving DecidableEq

namespace ClassItem

/-- The code point of a dash. -/
def dashCodePoint : Nat := 0x2D

def ofToken (t : Token) : Except CompileError ClassItem :=
  match t.kind with
  | .dash => .ok (.dash t.start)
  | .classEscape shorthand => .ok (.set shorthand.charset t.start)
  | _ => t.literal.map (.char · t.start)

/-- The item as one end of a range; a set has no place there. -/
def endpoint : ClassItem → Except CompileError (Nat × Nat)
  | char cp position => .ok (cp, position)
  | dash position => .ok (dashCodePoint, position)
  | set _ position => .error (.malformed position .malformedRange)

/-- An error of the ranges as an error of the pattern. -/
def liftRange {α : Type} (r : Except RangeError α) : Except CompileError α :=
  r.mapError .invalidRange

/-- The range between two items. -/
def rangeBetween (first last : ClassItem) : Except CompileError CodeRange := do
  let (low, position) ← first.endpoint
  let (high, _) ← last.endpoint
  if high < low then throw (.malformed position .malformedRange)
  liftRange (CodeRange.inclusive low high)

/-- The ranges of an item that is no end of a range. -/
def ranges : ClassItem → Except CompileError (List CodeRange)
  | char cp _ => do return [← liftRange (CodeRange.single cp)]
  | dash _ => do return [← liftRange (CodeRange.single dashCodePoint)]
  | set s _ => .ok s.ranges

/-- The ranges of the items of a class. -/
def rangesAll : List ClassItem → Except CompileError (List CodeRange)
  | first :: dash _ :: last :: items => do
    let r ← rangeBetween first last
    return r :: (← rangesAll items)
  | item :: items => do
    let rs ← item.ranges
    return rs ++ (← rangesAll items)
  | [] => .ok []

end ClassItem

/-- The tokens of a class behind its opening: the first token and all that follow up to a closing
bracket, then the rest, which starts with that bracket if there is one. -/
def classSpan : List Token → List Token × List Token
  | [] => ([], [])
  | t :: ts =>
    (t :: ts.takeWhile (·.kind ≠ .bracketClose), ts.dropWhile (·.kind ≠ .bracketClose))

theorem length_classSpan_le (ts : List Token) : (classSpan ts).2.length ≤ ts.length := by
  cases ts with
  | nil => exact Nat.le_refl _
  | cons t ts => exact Nat.le_succ_of_le (List.dropWhile_sublist _).length_le

/-- What a reader that takes at least one token answers: a value and the tokens left. -/
abbrev Parsed (α : Type) (ts : List Token) : Type :=
  { p : α × List Token // p.2.length < ts.length }

/-- The set of a class, from the tokens behind its opening bracket at `opened`. -/
def classSet (opened : Nat) (negated : Bool) (ts : List Token) :
    Except CompileError (Parsed CharSet ts) := do
  let items ← (classSpan ts).1.mapM ClassItem.ofToken
  match h : (classSpan ts).2 with
  | [] => throw (.malformed opened .unterminatedClass)
  | _ :: rest =>
    let ranges ← ClassItem.rangesAll items
    let s := CharSet.ofRanges ranges
    return ⟨(if negated then s.complement else s.canonical, rest), by
      have hlength := length_classSpan_le ts
      rw [h] at hlength
      exact hlength⟩

end SignalRegex
