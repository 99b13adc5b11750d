import SignalRegex.Program.Basic
import SignalRegex.Utf8.Decoder

/-!
Machines for programs, and the checks a program must pass first.

Every number in the tables of a program is checked against the table it points into, and every
subrange of a signal is looked up in the list that the signals share. The first fault found is the
error.
-/

set_option autoImplicit false

namespace SignalRegex

/-- Why a program cannot run. -/
inductive ProgramFault where
  | alphabet (size : Nat)
  | stateIndex (position index : Nat)
  | predecessor (state source states : Nat)
  | unknownSignal (state id signals : Nat)
  | accepting (pattern state states : Nat)
  | missingSubrange (signal : Nat) (s : SubRange)
deriving DecidableEq, Repr

namespace ProgramFault

def description : ProgramFault → String
  | alphabet size =>
    "alphabet size 0x" ++ Text.upperHex size ++ ", expected 0x" ++ Text.upperHex alphabetSize
  | stateIndex position index => s!"state at position {position} has index {index}"
  | predecessor state source states =>
    s!"state {state} has predecessor {source} out of {states} states"
  | unknownSignal state id signals => s!"state {state} references signal {id} out of {signals}"
  | accepting pattern state states =>
    s!"pattern {pattern} accepts in state {state} out of {states} states"
  | missingSubrange signal s =>
    s!"signal {signal} uses subrange " ++ s.name ++ " missing from the global list"

def message (f : ProgramFault) : String :=
  "invalid program: " ++ f.description

end ProgramFault

/-- Halves the stretch of `size` subranges from `base` on until one is left, keeping the half that
starts at the middle unless the one in the middle is greater than `s`. In a sorted list this is
where `s` is, if it is there. -/
def bisect (table : Array SubRange) (s : SubRange) (base size : Nat) : Nat :=
  if 1 < size then
    let half := size / 2
    let middle := base + half
    let next := if table[middle]?.any fun t ↦ (compare t s).isLE then middle else base
    bisect table s next (size - half)
  else base
termination_by size

/-- The place of a subrange in the shared list, as halving finds it. -/
def tap? (table : Array SubRange) (s : SubRange) : Option Nat :=
  let place := bisect table s 0 table.size
  if table[place]? = some s then some place else none

namespace Program

def alphabetFaults (p : Program) : List ProgramFault :=
  if p.alphabetSize = SignalRegex.alphabetSize then [] else [.alphabet p.alphabetSize]

def edgeFaults (p : Program) (state : Nat) (e : Edge) : List ProgramFault :=
  (if e.source < p.states.length then []
    else [.predecessor state e.source p.states.length]) ++
  match e.condition.signal? with
  | some id =>
    if id < p.signals.length then [] else [.unknownSignal state id p.signals.length]
  | none => []

def stateFaults (p : Program) (position : Nat) (s : State) : List ProgramFault :=
  (if s.index = position then [] else [.stateIndex position s.index]) ++
    s.incoming.flatMap (p.edgeFaults position)

def patternFaults (p : Program) (position : Nat) (q : Pattern) : List ProgramFault :=
  (q.accepting.filter fun s ↦ ¬ s < p.states.length).map
    (.accepting position · p.states.length)

def signalFaults (table : Array SubRange) (position : Nat) (s : RangeSignal) :
    List ProgramFault :=
  (s.subranges.filter fun s ↦ (tap? table s).isNone).map (.missingSubrange position)

/-- All that is wrong with a program, in the order in which it is looked for. -/
def faults (p : Program) : List ProgramFault :=
  p.alphabetFaults ++ (p.states.mapIdx p.stateFaults).flatten ++
    (p.patterns.mapIdx p.patternFaults).flatten ++
    (p.signals.mapIdx (signalFaults p.subranges.toArray)).flatten

end Program

/-- A program in the middle of a text: for every signal the places of its subranges, which states
are live, the decoder, and how many code points there were. -/
structure Machine where
  program : Program
  taps : List (List Nat)
  live : Array Bool
  decoder : Decoder
  steps : Nat

namespace Machine

/-- The machine of a program before the first text. -/
def build (p : Program) : Except ProgramFault Machine :=
  match p.faults with
  | fault :: _ => .error fault
  | [] => .ok {
      program := p
      taps := p.signals.map fun s ↦ s.subranges.filterMap (tap? p.subranges.toArray)
      live := p.initialVector.toArray
      decoder := .start
      steps := 0 }

end Machine

end SignalRegex
