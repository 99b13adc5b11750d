import SignalRegex.Signal.Basic

/-!
Programs: the tables that describe a matcher.

Every state lists its incoming edges, and a state is live after a code point when the source of one
of them was live before it and the condition of that edge holds. A pattern matches a text when one
of its accepting states is live at the end.
-/

set_option autoImplicit false

namespace SignalRegex

namespace Program

/-- An incoming edge. -/
structure Edge where
  source : Nat
  condition : Condition
deriving DecidableEq

/-- A state: its own number, whether it is live before the first code point, and the edges into
it. -/
structure State where
  index : Nat
  initial : Bool
  incoming : List Edge
deriving DecidableEq

/-- A pattern and the states that accept for it. -/
structure Pattern where
  source : String
  accepting : List Nat
deriving DecidableEq

end Program

/-- The tables of a matcher. Nothing keeps them consistent: a machine checks them before it
runs. -/
structure Program where
  name : String
  states : List Program.State
  patterns : List Program.Pattern
  signals : List RangeSignal
  subranges : List SubRange
  alphabetSize : Nat
deriving DecidableEq

namespace Program

/-- Every subrange that some signal reads, sorted and once each. -/
def sharedSubranges (signals : List RangeSignal) : List SubRange :=
  ((signals.flatMap (·.subranges)).mergeSort fun s t ↦ (compare s t).isLE).eraseReps

/-- The program of the given tables, with the subranges its signals share. -/
def ofTables (name : String) (states : List State) (patterns : List Pattern)
    (signals : List RangeSignal) : Program where
  name := name
  states := states
  patterns := patterns
  signals := signals
  subranges := sharedSubranges signals
  alphabetSize := SignalRegex.alphabetSize

/-- Which states are live before the first code point. -/
def initialVector (p : Program) : List Bool :=
  p.states.map (·.initial)

/-- The number of edges of all states. -/
def edgeCount (p : Program) : Nat :=
  p.states.foldr (·.incoming.length + ·) 0

/-- The positions of the initial states, whatever numbers the states carry. -/
def initialStates (p : Program) : List Nat :=
  (List.range p.states.length).filter fun i ↦ p.initialVector.getD i false

end Program

end SignalRegex
