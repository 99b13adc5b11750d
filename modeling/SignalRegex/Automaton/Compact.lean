import SignalRegex.Automaton.Basic

/-!
Renumbering and reversal.

Both keep the reachable part alone and number it in breadth-first order, so their results have
no more states than they were given (`size_compact`, `size_reverse_le`).
-/

set_option autoImplicit false

namespace SignalRegex.Automaton

/-- The reachable part, numbered in breadth-first order. A state that is not reachable has no
place in that order, so what names it is left out. -/
def compact (N : Automaton) : Automaton :=
  let order := N.reachable
  ofEdges order.length
    ((N.realsFrom order).map fun e ↦ ⟨order.idxOf e.source, e.label, order.idxOf e.target⟩)
    ((N.epsilonsFrom order).map fun e ↦ (order.idxOf e.1, order.idxOf e.2))
    (N.initial.toList.map order.idxOf)
    (N.finals.toList.map order.idxOf)

theorem size_compact (N : Automaton) : N.compact.size = N.reachable.length :=
  size_ofEdges ..

theorem size_compact_le (N : Automaton) : N.compact.size ≤ N.size :=
  size_compact N ▸ length_reachable_le N

/-- The same states with the edges out of reachable states turned around, the reachable final
states as initial ones and the initial states as final ones. -/
def flip (N : Automaton) : Automaton :=
  let order := N.reachable
  ofEdges N.size
    ((N.realsFrom order).map fun e ↦ ⟨e.target, e.label, e.source⟩)
    ((N.epsilonsFrom order).map fun e ↦ (e.2, e.1))
    (N.finals.toList.filter (· ∈ order))
    N.initial.toList

/-- The automaton read backwards, with the states from which a final state can be reached. -/
def reverse (N : Automaton) : Automaton :=
  N.flip.compact

theorem size_reverse_le (N : Automaton) : N.reverse.size ≤ N.size := by
  have h := size_compact_le N.flip
  rwa [flip, size_ofEdges] at h

end SignalRegex.Automaton
