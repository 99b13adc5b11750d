import SignalRegex.CharSet.Basic

/-!
The tokens of a pattern.

A token is one character or one escape sequence, and whether a character means itself is left to
its context. The texts of the tokens, one after the other, are the pattern. An escape that lacks
its hexadecimal digits is a token of two characters, and the digits that are there are tokens of
their own.
-/

set_option autoImplicit false

namespace SignalRegex

/-- A class of characters with an escape of its own. -/
inductive Shorthand where
  | digit
  | word
  | space
deriving DecidableEq, Repr

namespace Shorthand

def charset : Shorthand → CharSet
  | digit => ⟨[⟨0x30, 0x3A, by decide, by decide⟩], by decide⟩
  | word =>
    ⟨[⟨0x30, 0x3A, by decide, by decide⟩, ⟨0x41, 0x5B, by decide, by decide⟩,
      ⟨0x5F, 0x60, by decide, by decide⟩, ⟨0x61, 0x7B, by decide, by decide⟩], by decide⟩
  | space =>
    ⟨[⟨0x09, 0x0E, by decide, by decide⟩, ⟨0x20, 0x21, by decide, by decide⟩], by decide⟩

end Shorthand

namespace Token

inductive Kind where
  | parenOpen
  | parenClose
  | bracketOpen
  | bracketClose
  | braceOpen
  | braceClose
  | caret
  | dollar
  | dot
  | pipe
  | star
  | plus
  | question
  | dash
  | hexEscape
  | unicodeEscape
  | classEscape (shorthand : Shorthand)
  | escape
  | incomplete
  | char
deriving DecidableEq, Repr

namespace Kind

/-- Whether the token starts with a backslash. -/
def isEscape : Kind → Bool
  | hexEscape | unicodeEscape | classEscape _ | escape | incomplete => true
  | _ => false

end Kind

end Token

/-- A token with the byte offset at which it starts. Its text is never empty. -/
structure Token where
  kind : Token.Kind
  start : Nat
  first : Char
  more : List Char
deriving DecidableEq, Repr

/-- How many bytes a text takes. -/
def byteLength (text : List Char) : Nat :=
  text.foldr (·.utf8Size + ·) 0

namespace Token

def text (t : Token) : List Char :=
  t.first :: t.more

/-- The byte offset behind the token. -/
def stop (t : Token) : Nat :=
  t.start + byteLength t.text

/-- The kind of a character that starts no escape. -/
def plainKind : Char → Kind
  | '(' => .parenOpen
  | ')' => .parenClose
  | '[' => .bracketOpen
  | ']' => .bracketClose
  | '\x7b' => .braceOpen
  | '\x7d' => .braceClose
  | '^' => .caret
  | '$' => .dollar
  | '.' => .dot
  | '|' => .pipe
  | '*' => .star
  | '+' => .plus
  | '?' => .question
  | '-' => .dash
  | _ => .char

/-- Whether a text starts with `n` hexadecimal digits. -/
def startsWithHex (n : Nat) (text : List Char) : Bool :=
  n ≤ text.length && (text.take n).all Text.isHexDigit

/-- The kind of the escape that goes on with `rest` after its backslash, and how many characters of
`rest` it takes. -/
def escapeKind : List Char → Kind × Nat
  | [] => (.incomplete, 0)
  | 'x' :: rest => if startsWithHex 2 rest then (.hexEscape, 3) else (.incomplete, 1)
  | 'u' :: rest => if startsWithHex 6 rest then (.unicodeEscape, 7) else (.incomplete, 1)
  | 'd' :: _ => (.classEscape .digit, 1)
  | 'w' :: _ => (.classEscape .word, 1)
  | 's' :: _ => (.classEscape .space, 1)
  | _ :: _ => (.escape, 1)

/-- The kind of the token that starts with `c`, and how many characters after it belong to it. -/
def lexeme (c : Char) (rest : List Char) : Kind × Nat :=
  if c = '\\' then escapeKind rest else (plainKind c, 0)

/-- The tokens of a text that starts at a byte offset. -/
def scanFrom (start : Nat) (text : List Char) : List Token :=
  match text with
  | [] => []
  | c :: rest =>
    let token : Token := ⟨(lexeme c rest).1, start, c, rest.take (lexeme c rest).2⟩
    token :: scanFrom token.stop (rest.drop (lexeme c rest).2)
termination_by text.length

/-- The tokens of a pattern. -/
def scan (source : String) : List Token :=
  scanFrom 0 source.toList

end Token

end SignalRegex
