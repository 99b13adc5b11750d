import SignalRegex.Signal.Basic

/-!
The table of the signals a matcher uses.

A set and its complement share one signal, the side of which is tested that falls into fewer
pieces; the other side reads it negated. Signals are numbered in the order of their first use.

Scope. The numbers of signals are natural numbers. In words of thirty-two bits they are the same as
long as a table has at most `2 ^ 32` signals.
-/

set_option autoImplicit false

namespace SignalRegex

/-- The tested sets, by signal number. -/
structure SignalTable where
  sets : List CharSet
deriving DecidableEq

namespace SignalTable

def empty : SignalTable :=
  ⟨[]⟩

def size (t : SignalTable) : Nat :=
  t.sets.length

/-- Fewer pieces, and among equal prices the smaller list of ranges. -/
def costLE (s t : CharSet) : Bool :=
  SubRange.count s < SubRange.count t ||
    (SubRange.count s == SubRange.count t && (compare s t).isLE)

/-- The cheaper of a set and its complement, and whether it is the complement; neither when one of
the two is empty. -/
def choose (s : CharSet) : Option (CharSet × Bool) :=
  let normal := s.canonical
  let complement := normal.complement
  if SubRange.count normal = 0 ∨ SubRange.count complement = 0 then none
  else if costLE normal complement then some (normal, false)
  else some (complement, true)

/-- The condition that tests for a set, with the table after a signal has been added for it where
there was none. -/
def intern (t : SignalTable) (s : CharSet) : SignalTable × Condition :=
  match choose s with
  | none => (t, if s.isEmpty then .never else .always)
  | some (tested, negated) =>
    match t.sets.idxOf? tested with
    | some id => (t, .signal id negated)
    | none => (⟨t.sets ++ [tested]⟩, .signal t.size negated)

/-- The signals by number. -/
def signals (t : SignalTable) : List RangeSignal :=
  t.sets.map RangeSignal.ofCharSet

end SignalTable

end SignalRegex
