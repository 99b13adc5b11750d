import SignalRegex.CharSet.Printer
import SignalRegex.Signal.SubRange

/-!
Range signals and the conditions that read them.

A signal answers whether the current code point lies in a set, as the disjunction of the
comparators of the set's pieces. A condition is a constant, a signal, or the negation of a signal.
-/

set_option autoImplicit false

namespace SignalRegex

/-- A set together with the subranges that test for it. -/
structure RangeSignal where
  charset : CharSet
  subranges : List SubRange
deriving DecidableEq

namespace RangeSignal

/-- The signal of a set, cut at the block boundaries. -/
def ofCharSet (s : CharSet) : RangeSignal :=
  ⟨s.canonical, SubRange.decompose s.canonical⟩

def contains (s : RangeSignal) (cp : Nat) : Bool :=
  s.subranges.any (·.contains cp)

end RangeSignal

/-- The name of the signal with a given number. -/
def signalName (id : Nat) : String :=
  "match(" ++ Text.decimalRight 3 id ++ ")"

/-- What an edge asks of the current code point. -/
inductive Condition where
  | never
  | always
  | signal (id : Nat) (negated : Bool)
deriving DecidableEq, Repr

namespace Condition

/-- The condition under the given values of the signals; a signal without a value counts as
false. -/
def eval (values : Array Bool) : Condition → Bool
  | never => false
  | always => true
  | signal id negated => values.getD id false != negated

/-- The signal a condition reads. -/
def signal? : Condition → Option Nat
  | signal id _ => some id
  | _ => none

def print : Condition → String
  | never => "0"
  | always => "1"
  | signal id negated => (if negated then "!" else "") ++ signalName id

end Condition

end SignalRegex
