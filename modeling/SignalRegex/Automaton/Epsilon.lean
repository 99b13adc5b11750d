import SignalRegex.Automaton.Compact

/-!
Removal of epsilon edges. An edge into a state is led on to every state that epsilon edges reach
from there, the initial states are closed under epsilon edges, and a state is final when epsilon
edges lead from it to a final one.
-/

set_option autoImplicit false

namespace SignalRegex.Automaton

/-- The labelled edges out of reachable states, led on through epsilon edges. -/
def bypassEdges (N : Automaton) : List Edge :=
  (N.realsFrom N.reachable).flatMap fun e ↦
    (N.closure [e.target]).toList.map fun t ↦ ⟨e.source, e.label, t⟩

/-- Whether epsilon edges lead from a state to a final one. -/
def finishes (N : Automaton) (i : Nat) : Bool :=
  (N.closure [i]).toList.any (· ∈ N.finals)

/-- The automaton without epsilon edges. -/
def withoutEpsilon (N : Automaton) : Automaton :=
  (ofEdges N.size N.bypassEdges [] (N.closure N.initial.toList).toList
    (N.reachable.filter N.finishes)).compact

end SignalRegex.Automaton
