import SignalRegex.Pattern.Class
import SignalRegex.Pattern.Regex

/-!
Reading a pattern.

A pattern is a choice of sequences of items, and an item is an atom with at most one quantifier. An
atom is a code point, a dot, a class, or a pattern in parentheses. Every reader takes at least one
token, so the loops over items and choices end with the tokens, and the recursion into parentheses
ends with the depth that is left.
-/

set_option autoImplicit false

namespace SignalRegex

/-- A reader that fails or takes at least one token. -/
abbrev TokenReader (α : Type) : Type :=
  (ts : List Token) → Except CompileError (Parsed α ts)

namespace Regex

/-- The place of the next token, or the end of the pattern. -/
def offset (sourceEnd : Nat) (ts : List Token) : Nat :=
  (ts.head?.map (·.start)).getD sourceEnd

/-- Whether the next token has the given kind. -/
def startsWith (kind : Token.Kind) (ts : List Token) : Bool :=
  ts.head?.any (·.kind == kind)

/-- Whether a text starts with a bound on repetition: one or two numbers in braces, with a comma
between, of which one may be missing. -/
def isRepetition (text : List Char) : Bool :=
  match text with
  | '\x7b' :: rest =>
    let body := rest.takeWhile (· ≠ '\x7d')
    let low := body.takeWhile (· ≠ ',')
    let high := (body.dropWhile (· ≠ ',')).drop 1
    rest.contains '\x7d' && !(low.isEmpty && high.isEmpty) &&
      low.all Char.isDigit && high.all Char.isDigit
  | _ => false

/-- Refuses a bound on repetition at the next token. -/
def rejectRepetition (ts : List Token) : Except CompileError Unit :=
  match ts with
  | t :: _ =>
    if t.kind = .braceOpen ∧ isRepetition (ts.flatMap Token.text) then
      .error (.unsupported t.start .boundedRepetition)
    else .ok ()
  | [] => .ok ()

/-- What a quantifier makes of an item. -/
def quantified? (r : Regex) : Token.Kind → Option Regex
  | .star => some (star r)
  | .plus => some (plus r)
  | .question => some (maybe r)
  | _ => none

/-- Refuses what may not follow a quantifier. -/
def rejectSecondQuantifier (ts : List Token) : Except CompileError Unit :=
  match ts with
  | t :: _ =>
    match t.kind with
    | .question => .error (.unsupported t.start .lazyQuantifier)
    | .star | .plus => .error (.malformed t.start .multipleRepeat)
    | _ => rejectRepetition ts
  | [] => .ok ()

/-- The item with the quantifier that follows it, if any. -/
def quantify (r : Regex) : (ts : List Token) →
    Except CompileError { p : Regex × List Token // p.2.length ≤ ts.length }
  | [] => .ok ⟨(r, []), Nat.le_refl _⟩
  | t :: rest => do
    rejectRepetition (t :: rest)
    match r.quantified? t.kind with
    | some q =>
      rejectSecondQuantifier rest
      return ⟨(q, rest), Nat.le_succ _⟩
    | none => return ⟨(r, t :: rest), Nat.le_refl _⟩

/-- What follows the inside of a pair of parentheses that opens at `opened`. -/
def closeGroup (opened : Nat) : TokenReader Unit
  | [] => .error (.malformed opened .unterminatedGroup)
  | t :: rest =>
    if t.kind = .parenClose then .ok ⟨((), rest), Nat.lt_succ_self _⟩
    else .error (.malformed opened .unterminatedGroup)

/-- A pattern in parentheses, from the tokens behind the opening one at `opened`. -/
def group (nested : Nat → TokenReader Regex) (opened : Nat) : TokenReader Regex := fun ts ↦ do
  if startsWith .question ts then
    throw (.unsupported (offset opened ts) .groupModifier)
  let ⟨(r, rest), h⟩ ← nested opened ts
  let ⟨((), after), h'⟩ ← closeGroup opened rest
  return ⟨(r, after), Nat.lt_trans h' h⟩

/-- A class in brackets, from the tokens behind the opening one at `opened`. -/
def bracketed (opened : Nat) : TokenReader CharSet
  | [] => classSet opened false []
  | t :: rest =>
    if t.kind = .caret then do
      let ⟨p, h⟩ ← classSet opened true rest
      return ⟨p, Nat.lt_succ_of_lt h⟩
    else classSet opened false (t :: rest)

/-- An atom; `nested` reads what stands in the parentheses that open at a given place. -/
def atom (sourceEnd : Nat) (nested : Nat → TokenReader Regex) : TokenReader Regex
  | [] => .error (.malformed sourceEnd .expectedExpression)
  | t :: rest =>
    match t.kind with
    | .parenOpen => do
      let ⟨p, h⟩ ← group nested t.start rest
      return ⟨p, Nat.lt_succ_of_lt h⟩
    | .bracketOpen => do
      let ⟨(s, after), h⟩ ← bracketed t.start rest
      return ⟨(set s, after), Nat.lt_succ_of_lt h⟩
    | .dot => .ok ⟨(set .full, rest), Nat.lt_succ_self _⟩
    | .caret | .dollar => .error (.unsupported t.start .anchor)
    | .star | .plus | .question => .error (.malformed t.start .nothingToRepeat)
    | .pipe | .parenClose => .error (.malformed t.start .expectedExpression)
    | .classEscape shorthand => .ok ⟨(set shorthand.charset, rest), Nat.lt_succ_self _⟩
    | _ => do
      let cp ← t.literal
      let s ← ClassItem.liftRange (CharSet.single cp)
      return ⟨(set s, rest), Nat.lt_succ_self _⟩

/-- An atom with its quantifier. -/
def item (sourceEnd : Nat) (nested : Nat → TokenReader Regex) : TokenReader Regex := fun ts ↦ do
  let ⟨(r, rest), h⟩ ← atom sourceEnd nested ts
  let ⟨p, h'⟩ ← quantify r rest
  return ⟨p, Nat.lt_of_le_of_lt h' h⟩

/-- Whether a sequence ends before the next token. -/
def sequenceEnds (ts : List Token) : Bool :=
  ts.isEmpty || startsWith .pipe ts || startsWith .parenClose ts

/-- The items up to the end of the sequence. -/
def items (read : TokenReader Regex) (ts : List Token) :
    Except CompileError { p : List Regex × List Token // p.2.length ≤ ts.length } := do
  if sequenceEnds ts then
    return ⟨([], ts), Nat.le_refl _⟩
  else
    let ⟨(r, rest), h⟩ ← read ts
    let ⟨(rs, after), h'⟩ ← items read rest
    return ⟨(r :: rs, after), Nat.le_trans h' (Nat.le_of_lt h)⟩
termination_by ts.length

/-- A sequence of at least one item. -/
def sequence (sourceEnd : Nat) (read : TokenReader Regex) : TokenReader Regex := fun ts ↦ do
  if sequenceEnds ts then
    throw (.malformed (offset sourceEnd ts) .expectedExpression)
  let ⟨(r, rest), h⟩ ← read ts
  let ⟨(rs, after), h'⟩ ← items read rest
  return ⟨(ofSequence (r :: rs), after), Nat.lt_of_le_of_lt h' h⟩

/-- The further choices, each behind a bar. -/
def choices (read : TokenReader Regex) (ts : List Token) :
    Except CompileError { p : List Regex × List Token // p.2.length ≤ ts.length } :=
  match ts with
  | [] => .ok ⟨([], []), Nat.le_refl _⟩
  | t :: rest =>
    if t.kind = .pipe then do
      let ⟨(r, after), h⟩ ← read rest
      let ⟨(rs, last), h'⟩ ← choices read after
      return ⟨(r :: rs, last), Nat.le_succ_of_le (Nat.le_trans h' (Nat.le_of_lt h))⟩
    else .ok ⟨([], t :: rest), Nat.le_refl _⟩
termination_by ts.length
decreasing_by exact Nat.lt_succ_of_lt h

/-- A choice of at least one sequence. -/
def alternation (sourceEnd : Nat) (read : TokenReader Regex) : TokenReader Regex := fun ts ↦ do
  let ⟨(r, rest), h⟩ ← sequence sourceEnd read ts
  let ⟨(rs, after), h'⟩ ← choices (sequence sourceEnd read) rest
  return ⟨(ofChoices (r :: rs), after), Nat.lt_of_le_of_lt h' h⟩

/-- A pattern with parentheses nested at most `depth` deep. -/
def nestedWithin (sourceEnd : Nat) : (depth : Nat) → TokenReader Regex
  | 0 => alternation sourceEnd
      (item sourceEnd fun opened _ ↦ .error (.malformed opened .nestedTooDeeply))
  | depth + 1 => alternation sourceEnd
      (item sourceEnd fun _ ts ↦ nestedWithin sourceEnd depth ts)

/-- The tree of a pattern with parentheses nested at most `depth` deep. -/
def parseWithin (depth : Nat) (source : String) : Except CompileError Regex := do
  let ⟨(r, rest), _⟩ ←
    nestedWithin (byteLength source.toList) depth (Token.scan source)
  match rest with
  | [] => return r
  | t :: _ =>
    if t.kind = .parenClose then throw (.malformed t.start .unbalancedParenthesis)
    else throw (.malformed t.start .trailingInput)

/-- How deep parentheses may be nested unless a configuration says otherwise. -/
def defaultDepth : Nat := 256

def parse (source : String) : Except CompileError Regex :=
  parseWithin defaultDepth source

end Regex

end SignalRegex
