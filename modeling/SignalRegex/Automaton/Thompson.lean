import SignalRegex.Automaton.Basic
import SignalRegex.Pattern.Regex

/-!
The automaton of a pattern.

Every node of the pattern becomes a fragment with entries and exits of its own, and the fragments
are joined by epsilon edges. Children are numbered before their parent. A repetition or an option
has an entry of its own, so no edge from outside enters a loop in the middle.
-/

set_option autoImplicit false

namespace SignalRegex.Automaton

/-- A part of an automaton under construction: how many states it takes, its edges, and where it is
entered and left. -/
structure Fragment where
  size : Nat
  reals : List Edge
  epsilons : List (Nat × Nat)
  initial : List Nat
  finals : List Nat

namespace Fragment

/-- An epsilon edge from every state of one list to every state of another. -/
def link (sources targets : List Nat) : List (Nat × Nat) :=
  sources.flatMap fun s ↦ targets.map (s, ·)

/-- Two states with an edge between them. -/
def leaf (base : Nat) (s : CharSet) : Fragment where
  size := 2
  reals := [⟨base, s, base + 1⟩]
  epsilons := []
  initial := [base]
  finals := [base + 1]

/-- A loop through one new state, which is both entry and exit. -/
def star (base : Nat) (c : Fragment) : Fragment :=
  let hub := base + c.size
  { c with
    size := c.size + 1
    epsilons := c.epsilons ++ link [hub] c.initial ++ link c.finals [hub]
    initial := [hub]
    finals := [hub] }

/-- A new entry, and edges from the exits back to the inner entries. -/
def plus (base : Nat) (c : Fragment) : Fragment :=
  let entry := base + c.size
  { c with
    size := c.size + 1
    epsilons := c.epsilons ++ link [entry] c.initial ++ link c.finals c.initial
    initial := [entry] }

/-- A new entry that is also an exit. -/
def maybe (base : Nat) (c : Fragment) : Fragment :=
  let entry := base + c.size
  { c with
    size := c.size + 1
    epsilons := c.epsilons ++ link [entry] c.initial
    initial := [entry]
    finals := c.finals ++ [entry] }

/-- The edges from the exits of each part to the entries of the next one. -/
def chainLinks : List Fragment → List (Nat × Nat)
  | p :: q :: rest => link p.finals q.initial ++ chainLinks (q :: rest)
  | _ => []

/-- The parts one after the other. -/
def concat (parts : List Fragment) : Fragment where
  size := parts.foldr (·.size + ·) 0
  reals := parts.flatMap (·.reals)
  epsilons := parts.flatMap (·.epsilons) ++ chainLinks parts
  initial := (parts.head?.map (·.initial)).getD []
  finals := (parts.getLast?.map (·.finals)).getD []

/-- The parts side by side. -/
def alternate (parts : List Fragment) : Fragment where
  size := parts.foldr (·.size + ·) 0
  reals := parts.flatMap (·.reals)
  epsilons := parts.flatMap (·.epsilons)
  initial := parts.flatMap (·.initial)
  finals := parts.flatMap (·.finals)

mutual

/-- The fragment of a pattern, its states numbered from `base` on. -/
def ofRegex (base : Nat) : Regex → Fragment
  | .set s => leaf base s
  | .star r => star base (ofRegex base r)
  | .plus r => plus base (ofRegex base r)
  | .maybe r => maybe base (ofRegex base r)
  | .concat rs => concat (ofRegexes base rs)
  | .alternate rs => alternate (ofRegexes base rs)

/-- The fragments of several patterns, numbered one after the other. -/
def ofRegexes (base : Nat) : List Regex → List Fragment
  | [] => []
  | r :: rs => ofRegex base r :: ofRegexes (base + (ofRegex base r).size) rs

end

end Fragment

/-- The automaton that accepts what the pattern stands for. -/
def ofRegex (r : Regex) : Automaton :=
  let f := Fragment.ofRegex 0 r
  ofEdges f.size f.reals f.epsilons f.initial f.finals

end SignalRegex.Automaton
