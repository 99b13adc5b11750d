import SignalRegex.Log
import SignalRegex.Machine.Basic

/-!
What a machine writes to the log: an entry for every code point, with the states that are live
after it, and an entry for the end of every text.
-/

set_option autoImplicit false

namespace SignalRegex.Machine

/-- The entry for a code point, from the machine after it. -/
def stepEntry (m : Machine) (cp : Nat) : LogEntry :=
  let live := ", ".intercalate (m.liveStates.map toString)
  ⟨.trace, s!"step {m.steps} cp=0x" ++ Text.hex cp ++ " live=[" ++ live ++ "]"⟩

/-- The entries for one code point. -/
def stepTrace (m : Machine) (cp : Nat) : List LogEntry :=
  [(m.step cp).stepEntry cp]

/-- The entries for one byte. -/
def feedTrace (m : Machine) (byte : UInt8) : List LogEntry :=
  match (m.decoder.push byte).2 with
  | some cp => m.stepTrace cp
  | none => []

/-- The entries for some bytes. -/
def feedBytesTrace (m : Machine) : List UInt8 → List LogEntry
  | [] => []
  | byte :: bytes => m.feedTrace byte ++ (m.feed byte).feedBytesTrace bytes

/-- The entry for the end of a text. -/
def finishTrace (m : Machine) : List LogEntry :=
  [⟨.trace, s!"end of string after {m.steps} code points"⟩]

/-- The entries for a whole text. -/
def runTrace (m : Machine) (bytes : List UInt8) : List LogEntry :=
  m.reset.feedBytesTrace bytes ++ (m.reset.feedBytes bytes).finishTrace

end SignalRegex.Machine
