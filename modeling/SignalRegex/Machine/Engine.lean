import SignalRegex.Machine.Session

/-!
Engines: machines that work in place.

The values of the subranges and of the signals, and the states that are live next, are written over
what an earlier code point left in arrays that stay. Tables are read at the numbers that other
tables hold, and where such a number points outside of its table an engine does not go on.
-/

set_option autoImplicit false

namespace SignalRegex

/-- Writes the values of some items over a list, from its start and as far as both go. -/
def overwrite {α : Type} (value? : α → Option Bool) : List Bool → List α → Option (List Bool)
  | _ :: old, a :: items => do
    let b ← value? a
    return b :: (← overwrite value? old items)
  | old, _ => some old

/-- The condition under the given values of the signals, if the one it reads is among them. -/
def Condition.eval? (values : Array Bool) : Condition → Option Bool
  | never => some false
  | always => some true
  | signal id negated => values[id]?.map (· != negated)

/-- A machine with the arrays it works in. -/
structure Engine extends Machine where
  next : Array Bool
  signals : Array Bool
  subranges : Array Bool

namespace Engine

/-- Overwrites an array with the values of some items. -/
def fill? {α : Type} (buffer : Array Bool) (items : List α) (value? : α → Option Bool) :
    Option (Array Bool) :=
  (overwrite value? buffer.toList items).map List.toArray

/-- The engine of a machine. -/
def ofMachine (m : Machine) : Engine where
  toMachine := m
  next := .replicate m.live.size false
  signals := .replicate m.taps.length false
  subranges := .replicate m.program.subranges.length false

/-- The values of the subranges at a code point. -/
def testSubranges? (e : Engine) (cp : Nat) : Option (Array Bool) :=
  fill? e.subranges e.program.subranges fun s ↦ some (s.contains cp)

/-- The values of the signals, from those of the subranges. -/
def joinSubranges? (e : Engine) (subranges : Array Bool) : Option (Array Bool) :=
  fill? e.signals e.taps fun taps ↦ taps.anyM fun t ↦ subranges[t]?

/-- The states that are live next, from the values of the signals. -/
def advance? (e : Engine) (signals : Array Bool) : Option (Array Bool) :=
  fill? e.next e.program.states fun s ↦ s.incoming.anyM fun edge ↦ do
    if ← e.live[edge.source]? then edge.condition.eval? signals else return false

/-- Takes one code point. The next code point writes over the states that were live before it. -/
def step? (e : Engine) (cp : Nat) : Option Engine := do
  let subranges ← e.testSubranges? cp
  let signals ← e.joinSubranges? subranges
  let next ← e.advance? signals
  return { e with live := next, steps := e.steps + 1, next := e.live, signals, subranges }

def feed? (e : Engine) (byte : UInt8) : Option Engine :=
  let (decoder, out) := e.decoder.push byte
  let e := { e with decoder := decoder }
  match out with
  | some cp => e.step? cp
  | none => some e

def feedBytes? (e : Engine) (bytes : List UInt8) : Option Engine :=
  bytes.foldlM feed? e

/-- Before the first code point of a text. The other arrays stay as they are. -/
def reset (e : Engine) : Engine :=
  { e with toMachine := e.toMachine.reset }

def result? (e : Engine) : Option MatchResult := do
  let accepted ← e.program.patterns.mapM fun p ↦ p.accepting.anyM fun s ↦ e.live[s]?
  return ⟨accepted, e.decoder.malformed⟩

def finish? (e : Engine) : Option (Engine × MatchResult) := do
  return (e.reset, ← e.result?)

def run? (e : Engine) (bytes : List UInt8) : Option (Engine × MatchResult) := do
  (← e.reset.feedBytes? bytes).finish?

def perform? (e : Engine) : Operation → Option (Engine × Option MatchResult)
  | .feed byte => return (← e.feed? byte, none)
  | .feedBytes bytes => return (← e.feedBytes? bytes, none)
  | .feedCodePoint cp => return (← e.step? cp, none)
  | .finish => return (← e.finish?).map id some
  | .run bytes => return (← e.run? bytes).map id some
  | .runText text => return (← e.run? (encodeText text)).map id some

/-- The engine after some operations. -/
def after? (e : Engine) (ops : List Operation) : Option Engine :=
  ops.foldlM (fun e op ↦ (e.perform? op).map (·.1)) e

/-- What is seen after each of some operations. -/
def observations? (e : Engine) : List Operation → Option (List Observation)
  | [] => some []
  | op :: ops => do
    let (e, answer) ← e.perform? op
    return e.observe answer :: (← e.observations? ops)

/-- What is seen before some operations and after each of them. -/
def session? (e : Engine) (ops : List Operation) : Option (List Observation) := do
  return e.observe none :: (← e.observations? ops)

end Engine

end SignalRegex
