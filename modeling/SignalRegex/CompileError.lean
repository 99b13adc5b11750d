import SignalRegex.CharSet.Range
import SignalRegex.Text.Report

/-!
Why a pattern does not compile, with the message and the report of each cause. Positions are byte
offsets into the pattern.
-/

set_option autoImplicit false

namespace SignalRegex

/-- A pattern that is not in the language. -/
inductive Fault where
  | expectedExpression
  | unbalancedParenthesis
  | trailingInput
  | nothingToRepeat
  | multipleRepeat
  | nestedTooDeeply
  | unterminatedGroup
  | unterminatedClass
  | malformedRange
  | invalidEscape
  | incompleteEscape
  | codePointOutOfRange
deriving DecidableEq, Repr

namespace Fault

def message : Fault → String
  | expectedExpression => "expected an expression"
  | unbalancedParenthesis => "unbalanced parenthesis"
  | trailingInput => "unexpected trailing input"
  | nothingToRepeat => "nothing to repeat"
  | multipleRepeat => "multiple repeat"
  | nestedTooDeeply => "pattern nested too deeply"
  | unterminatedGroup => "unterminated group"
  | unterminatedClass => "unterminated character class"
  | malformedRange => "malformed range"
  | invalidEscape => "invalid escape sequence"
  | incompleteEscape => "incomplete escape sequence"
  | codePointOutOfRange => "code point out of range"

end Fault

/-- A construct that other pattern languages have and this one refuses. -/
inductive Feature where
  | lazyQuantifier
  | anchor
  | groupModifier
  | boundedRepetition
deriving DecidableEq, Repr

namespace Feature

def name : Feature → String
  | lazyQuantifier => "lazy quantifier"
  | anchor => "anchor"
  | groupModifier => "group modifier"
  | boundedRepetition => "bounded repetition"

end Feature

inductive CompileError where
  | malformed (position : Nat) (fault : Fault)
  | unsupported (position : Nat) (feature : Feature)
  | invalidRange (cause : RangeError)
  | stateLimit (limit states : Nat)
  | inPattern (index : Nat) (cause : CompileError)
deriving DecidableEq, Repr

namespace CompileError

/-- The message of a fault with its place. -/
def malformedMessage (position : Nat) (message : String) : String :=
  s!"parse error at offset {position}: {message}"

def message : CompileError → String
  | malformed position fault => malformedMessage position fault.message
  | unsupported position feature =>
    s!"unsupported feature at offset {position}: " ++ feature.name
  | invalidRange cause => cause.message
  | stateLimit limit states => s!"state limit exceeded: {states} states, limit is {limit}"
  | inPattern index cause => s!"pattern {index}: " ++ cause.message

/-- The report of an error against the pattern that caused it; an error without a place reports
its message. -/
def report (source : String) : CompileError → String
  | malformed position fault => Text.report source position fault.message
  | unsupported position feature =>
    Text.report source position ("unsupported feature: " ++ feature.name)
  | inPattern _ cause => cause.report source
  | e => e.message

end CompileError

end SignalRegex
