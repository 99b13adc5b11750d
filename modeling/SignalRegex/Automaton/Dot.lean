import SignalRegex.Automaton.Basic
import SignalRegex.CharSet.Printer

/-!
The reachable part of an automaton as a drawing: initial states are boxes, final states have two
borders, and epsilon edges are dotted.
-/

set_option autoImplicit false

namespace SignalRegex.Automaton

/-- A label between quotes. -/
def dotEscape (label : String) : String :=
  String.ofList (label.toList.flatMap fun c ↦ if c = '\\' ∨ c = '"' then ['\\', c] else [c])

def dotState (N : Automaton) (i : Nat) : String :=
  let shape := if i ∈ N.initial then "box" else "circle"
  let borders := if i ∈ N.finals then "2" else "1"
  s!"  s{i} [shape=" ++ shape ++ ", peripheries=" ++ borders ++ "];\n"

def dotEdges (N : Automaton) (i : Nat) : String :=
  String.join ((N.state i).real.toList.map fun (t, label) ↦
      s!"  s{i} -> s{t} [label=\"" ++ dotEscape label.print ++ "\"];\n") ++
    String.join ((N.state i).epsilon.toList.map fun t ↦ s!"  s{i} -> s{t} [style=dotted];\n")

def dot (N : Automaton) : String :=
  "digraph nfae \x7b\n  rankdir=LR;\n" ++ String.join (N.reachable.map N.dotState) ++
    String.join (N.reachable.map N.dotEdges) ++ "\x7d\n"

end SignalRegex.Automaton
