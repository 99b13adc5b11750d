/-!
Numbers as text: hexadecimal and octal numerals, with and without a fixed width.
-/

set_option autoImplicit false

namespace SignalRegex.Text

/-- Hexadecimal, lower case, no leading zeros. -/
def hex (n : Nat) : String :=
  String.ofList (Nat.toDigits 16 n)

/-- Hexadecimal, upper case, no leading zeros. -/
def upperHex (n : Nat) : String :=
  String.ofList ((Nat.toDigits 16 n).map Char.toUpper)

/-- Octal, filled with zeros on the left up to `width` digits. -/
def octal (width n : Nat) : String :=
  String.ofList ((Nat.toDigits 8 n).leftpad width '0')

/-- Decimal, filled with blanks on the left up to `width` characters. -/
def decimalRight (width n : Nat) : String :=
  String.ofList ((Nat.toDigits 10 n).leftpad width ' ')

/-- The upper-case hexadecimal digit of a number below sixteen. -/
def hexDigit (d : Nat) : Char :=
  if d < 10 then Char.ofNat (0x30 + d) else Char.ofNat (0x37 + d)

/-- The last `width` hexadecimal digits of a number, upper case. -/
def fixedHex : Nat → Nat → List Char
  | 0, _ => []
  | width + 1, n => fixedHex width (n / 16) ++ [hexDigit (n % 16)]

/-- The value of one hexadecimal digit of either case. -/
def hexValue? (c : Char) : Option Nat :=
  if '0' ≤ c ∧ c ≤ '9' then some (c.toNat - 0x30)
  else if 'A' ≤ c ∧ c ≤ 'F' then some (c.toNat - 0x37)
  else if 'a' ≤ c ∧ c ≤ 'f' then some (c.toNat - 0x57)
  else none

/-- Whether a character is a hexadecimal digit of either case. -/
def isHexDigit (c : Char) : Bool :=
  (hexValue? c).isSome

/-- The number a string of hexadecimal digits spells, most significant digit first. -/
def readHex? (digits : List Char) : Option Nat :=
  digits.foldlM (fun value c ↦ (hexValue? c).map (16 * value + ·)) 0

end SignalRegex.Text
