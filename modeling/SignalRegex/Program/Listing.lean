import SignalRegex.Program.Basic
import SignalRegex.Text.Quoted

/-!
The listing of a program: its tables as text, one section after the other.
-/

set_option autoImplicit false

namespace SignalRegex.Program

def stateName (index : Nat) : String :=
  "s(" ++ Text.decimalRight 3 index ++ ")"

/-- Every line with a line feed behind it. -/
def joinLines (lines : List String) : String :=
  String.join (lines.map (· ++ "\n"))

def headerLines (p : Program) : List String :=
  ["[matcher]", "name = " ++ Text.quoted p.name, "alphabet = 0x" ++ Text.upperHex p.alphabetSize]

/-- The name of the subrange, filled up to twelve characters, and its code points. -/
def subrangeLine (s : SubRange) : String :=
  String.ofList (s.name.toList.rightpad 12 ' ') ++ " ; " ++ s.charset.print

def signalLine (id : Nat) (s : RangeSignal) : String :=
  signalName id ++ " = " ++ " | ".intercalate (s.subranges.map (·.name)) ++ " ; " ++
    s.charset.print

def stateLine (s : State) : String :=
  stateName s.index ++ (if s.initial then " initial" else "") ++
    if s.incoming.isEmpty then ""
    else " <- " ++ ", ".intercalate
      (s.incoming.map fun e ↦ stateName e.source ++ " & " ++ e.condition.print)

def patternLine (id : Nat) (p : Pattern) : String :=
  s!"p{id} " ++ Text.quoted p.source ++ " -> " ++
    ", ".intercalate (p.accepting.map stateName)

/-- The sections header, subranges, signals, states and patterns, with a blank line between. -/
def listing (p : Program) : String :=
  joinLines <|
    p.headerLines ++ [""] ++
    "[subranges]" :: p.subranges.map subrangeLine ++ [""] ++
    "[signals]" :: p.signals.mapIdx signalLine ++ [""] ++
    "[states]" :: p.states.map stateLine ++ [""] ++
    "[patterns]" :: p.patterns.mapIdx patternLine

end SignalRegex.Program
