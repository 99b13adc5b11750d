/-!
Values of the wire form: nulls, booleans, decimal numbers, texts, lists and records.

Readers answer nothing when a value has the wrong shape. A record may hold fields that nobody asks
for, as often as it likes, but each field that is asked for only once. A record may also be written
as the list of its fields, in their order and without their names.
-/

set_option autoImplicit false

namespace SignalRegex.Wire

/-- A wire value. The number `m` with exponent `e` stands for `m` divided by the `e`-th power of
ten. -/
inductive Value where
  | null
  | bool (b : Bool)
  | number (mantissa : Int) (exponent : Nat)
  | text (s : String)
  | list (items : List Value)
  | record (fields : List (String × Value))
deriving Inhabited

namespace Value

def ofNat (n : Nat) : Value :=
  number n 0

/-- A natural number below `bound`, written without a fraction. -/
def natBelow? (bound : Nat) : Value → Option Nat
  | number (.ofNat n) 0 => if n < bound then some n else none
  | _ => none

/-- A number of thirty-two bits. -/
def word? : Value → Option Nat :=
  natBelow? 0x100000000

/-- A number of eight bits. -/
def byte? : Value → Option Nat :=
  natBelow? 0x100

def bool? : Value → Option Bool
  | bool b => some b
  | _ => none

def text? : Value → Option String
  | text s => some s
  | _ => none

/-- A list whose items all read. -/
def list? {α : Type} (item? : Value → Option α) : Value → Option (List α)
  | list items => items.mapM item?
  | _ => none

/-- One of the fields of a record, read. A list stands for the record if it has an item for each of
the fields. -/
def field? {α : Type} (names : List String) (name : String) (read? : Value → Option α) :
    Value → Option α
  | record fields =>
    match fields.filter (·.1 == name) with
    | [(_, v)] => read? v
    | _ => none
  | list items =>
    if items.length = names.length then items[names.idxOf name]?.bind read? else none
  | _ => none

end Value

end SignalRegex.Wire
