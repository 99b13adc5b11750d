import SignalRegex.Machine.Build

/-!
Running a program.

A code point first sets all signals and then all states, each from what was live before it. At the
end of a text the machine answers which patterns match and is as good as new.
-/

set_option autoImplicit false

namespace SignalRegex

/-- Which patterns match a text, and whether its bytes were malformed. -/
structure MatchResult where
  accepted : List Bool
  malformed : Bool
deriving DecidableEq, Repr

namespace MatchResult

/-- The numbers of the patterns that match. -/
def matched (r : MatchResult) : List Nat :=
  (List.range r.accepted.length).filter fun i ↦ r.accepted.getD i false

end MatchResult

namespace Machine

/-- Before the first code point of a text. -/
def reset (m : Machine) : Machine :=
  { m with live := m.program.initialVector.toArray, decoder := .start, steps := 0 }

/-- The values of the signals at a code point. -/
def signalValues (m : Machine) (cp : Nat) : Array Bool :=
  let bits := m.program.subranges.toArray.map (·.contains cp)
  (m.taps.map fun taps ↦ taps.any fun t ↦ bits.getD t false).toArray

/-- Takes one code point. -/
def step (m : Machine) (cp : Nat) : Machine :=
  let values := m.signalValues cp
  { m with
    live := (m.program.states.map fun s ↦
      s.incoming.any fun e ↦ m.live.getD e.source false && e.condition.eval values).toArray
    steps := m.steps + 1 }

/-- Takes one byte. -/
def feed (m : Machine) (byte : UInt8) : Machine :=
  let (decoder, out) := m.decoder.push byte
  let m := { m with decoder := decoder }
  match out with
  | some cp => m.step cp
  | none => m

def feedBytes (m : Machine) (bytes : List UInt8) : Machine :=
  bytes.foldl feed m

/-- What the machine answers at the end of the text. -/
def result (m : Machine) : MatchResult where
  accepted := m.program.patterns.map fun p ↦ p.accepting.any fun s ↦ m.live.getD s false
  malformed := m.decoder.malformed

/-- Ends the text. -/
def finish (m : Machine) : Machine × MatchResult :=
  (m.reset, m.result)

/-- Takes a whole text as bytes. -/
def run (m : Machine) (bytes : List UInt8) : Machine × MatchResult :=
  (m.reset.feedBytes bytes).finish

def runText (m : Machine) (text : String) : Machine × MatchResult :=
  m.run (encodeText text)

/-- The numbers of the live states. -/
def liveStates (m : Machine) : List Nat :=
  (List.range m.live.size).filter fun i ↦ m.live.getD i false

end Machine

end SignalRegex
