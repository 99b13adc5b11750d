import SignalRegex.Machine.Basic

/-!
Sessions with a machine: operations one after the other, and what is seen of the machine between
them.
-/

set_option autoImplicit false

namespace SignalRegex

/-- What a machine can be asked to do. -/
inductive Operation where
  | feed (byte : UInt8)
  | feedBytes (bytes : List UInt8)
  | feedCodePoint (cp : Nat)
  | finish
  | run (bytes : List UInt8)
  | runText (text : String)
deriving DecidableEq, Repr

/-- Whether the operation ends a text, so that the machine answers. -/
def Operation.endsText : Operation → Bool
  | finish | run _ | runText _ => true
  | feed _ | feedBytes _ | feedCodePoint _ => false

/-- What is seen of a machine: its live states, the number of code points, and its answer where a
text has just ended. -/
structure Observation where
  live : List Nat
  steps : Nat
  answer : Option MatchResult
deriving DecidableEq, Repr

namespace Machine

def observe (m : Machine) (answer : Option MatchResult) : Observation :=
  ⟨m.liveStates, m.steps, answer⟩

/-- The machine after an operation, and its answer. -/
def perform (m : Machine) : Operation → Machine × Option MatchResult
  | .feed byte => (m.feed byte, none)
  | .feedBytes bytes => (m.feedBytes bytes, none)
  | .feedCodePoint cp => (m.step cp, none)
  | .finish => m.finish.map id some
  | .run bytes => (m.run bytes).map id some
  | .runText text => (m.runText text).map id some

/-- The machine after some operations. -/
def after (m : Machine) (ops : List Operation) : Machine :=
  ops.foldl (fun m op ↦ (m.perform op).1) m

/-- What is seen after each of some operations. -/
def observations (m : Machine) : List Operation → List Observation
  | [] => []
  | op :: ops =>
    let (m, answer) := m.perform op
    m.observe answer :: m.observations ops

/-- What is seen before some operations and after each of them. -/
def session (m : Machine) (ops : List Operation) : List Observation :=
  m.observe none :: m.observations ops

end Machine

end SignalRegex
