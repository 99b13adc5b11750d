import SignalRegex.Automaton.Compact

/-!
Removal of isolated states. A state that is initial and final and has no edges accepts the empty
text and nothing else; where another such state has edges, it is not needed.
-/

set_option autoImplicit false

namespace SignalRegex.Automaton

/-- Takes the marks off some states. -/
def unmark (N : Automaton) (ids : List Nat) : Automaton :=
  { N with
    initial := N.initial.filter (· ∉ ids)
    finals := N.finals.filter (· ∉ ids)
    initial_lt := fun i hi ↦ N.initial_lt i (IdSet.mem_filter.mp hi).1
    finals_lt := fun i hi ↦ N.finals_lt i (IdSet.mem_filter.mp hi).1 }

/-- The states that are both initial and final. -/
def acceptingInitial (N : Automaton) : List Nat :=
  N.initial.toList.filter (· ∈ N.finals)

/-- The initial and final states with no edge out of them and no edge into them from a reachable
state. -/
def isolated (N : Automaton) : List Nat :=
  let entered := N.reachable.flatMap N.targets
  N.acceptingInitial.filter fun i ↦ (N.state i).isTerminal && decide (i ∉ entered)

/-- Drops the isolated states where some initial and final state has edges; also whether there was
anything to drop. -/
def prune (N : Automaton) : Automaton × Bool :=
  if N.acceptingInitial.all (fun i ↦ (N.state i).isTerminal) || N.isolated.isEmpty then (N, false)
  else ((N.unmark N.isolated).compact, true)

end SignalRegex.Automaton
