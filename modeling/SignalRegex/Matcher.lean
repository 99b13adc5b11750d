import SignalRegex.Automaton.Collapse
import SignalRegex.Automaton.Epsilon
import SignalRegex.Automaton.Prune
import SignalRegex.Automaton.Thompson
import SignalRegex.Log
import SignalRegex.Pattern.Parser
import SignalRegex.Program.Basic
import SignalRegex.Signal.Table
import SignalRegex.Text.Quoted

/-!
Matchers for several patterns at once.

Each pattern becomes an automaton without epsilon edges, which is merged and pruned on its own. Its
reversal gives every state the edges into it, and these states are appended to those of the
patterns before, with one table of signals for all. The tables grow in place, state by state and
label by label, and the computations that let them grow keep the matcher whether they fail or not.

Scope. The numbers of states in the tables are natural numbers. In words of thirty-two bits they are
the same as long as a matcher has at most `2 ^ 32` states.
-/

set_option autoImplicit false

namespace SignalRegex

/-- A computation that may fail on a pattern and that writes a log. -/
abbrev Compiling (α : Type) : Type :=
  ExceptT CompileError Logged α

namespace Matcher

/-- How patterns are compiled. -/
structure Config where
  minimize : Bool
  prune : Bool
  stateLimit : Option Nat
  depth : Nat
deriving DecidableEq, Repr

namespace Config

/-- Merging and pruning, any number of states, and the usual depth. -/
def default : Config where
  minimize := true
  prune := true
  stateLimit := none
  depth := Regex.defaultDepth

/-- Refuses more states than the limit allows. -/
def checkLimit (c : Config) (states : Nat) : Except CompileError Unit :=
  match c.stateLimit with
  | some limit => if limit < states then .error (.stateLimit limit states) else .ok ()
  | none => .ok ()

/-- Reports the size of the automaton after a stage. -/
def reportStage (source : String) (N : Automaton) (stage : String) : Compiling Unit :=
  Logged.write .debug (Text.quoted source ++ s!": {N.size} states after " ++ stage)

/-- The automaton after merging, where the configuration asks for it. -/
def merge (c : Config) (source : String) (N : Automaton) : Compiling Automaton := do
  if c.minimize then
    let M := N.minimize
    reportStage source M "minimization"
    return M
  else return N

/-- The automaton after pruning, where the configuration asks for it. -/
def pruned (c : Config) (source : String) (N : Automaton) : Compiling Automaton := do
  if c.prune then
    let (M, changed) := N.prune
    if changed then reportStage source M "pruning"
    return M
  else return N

/-- The automaton of one pattern, without epsilon edges. -/
def automaton (c : Config) (source : String) : Compiling Automaton := do
  let r ← Regex.parseWithin c.depth source
  let built := Automaton.ofRegex r
  reportStage source built "construction"
  c.checkLimit built.size
  let bare := built.withoutEpsilon
  reportStage source bare "epsilon elimination"
  c.checkLimit bare.size
  c.pruned source (← c.merge source bare)

end Config

end Matcher

/-- The tables of the patterns compiled so far. -/
structure Matcher where
  name : String
  config : Matcher.Config
  states : List Program.State
  patterns : List Program.Pattern
  table : SignalTable

namespace Matcher

def new (name : String) (config : Config) : Matcher where
  name := name
  config := config
  states := []
  patterns := []
  table := .empty

end Matcher

/-- A computation that changes a matcher, may fail on a pattern, and writes a log. It leaves a
matcher also where it fails: what it changed before stays changed. -/
abbrev Growing (α : Type) : Type :=
  ExceptT CompileError (StateT Matcher Logged) α

namespace Growing

/-- What the computation answers, and the matcher it leaves. -/
def outcome {α : Type} (x : Growing α) (m : Matcher) : Except CompileError α × Matcher :=
  (x.run.run m).value

instance : MonadLift (ExceptT CompileError Logged) (ExceptT CompileError (StateT Matcher Logged)) :=
  ⟨fun x ↦ ExceptT.mk (liftM x.run)⟩

end Growing

namespace Matcher

/-- The condition that tests for a label, from the table of the matcher. -/
def internLabel (label : CharSet) : Growing Condition :=
  modifyGet fun m ↦
    let (table, condition) := m.table.intern label
    (condition, { m with table })

/-- The edges into a state, from the edges out of it in the reversed automaton, with their labels
put into the table one after the other. -/
def edgesInto (offset : Nat) (edges : List (Nat × CharSet)) : Growing (List Program.Edge) :=
  edges.mapM fun (source, label) ↦ do
    let condition ← internLabel label
    return ⟨offset + source, condition⟩

/-- Adds a state of a reversed automaton, the states of which are numbered from `offset` on. -/
def growState (offset : Nat) (R : Automaton) (i : Nat) : Growing Unit := do
  let incoming ← edgesInto offset (R.state i).real.toList
  modify fun m ↦
    { m with states := m.states ++ [⟨offset + i, decide (i ∈ R.finals), incoming⟩] }

/-- Compiles a pattern and adds it, and answers the number it got. -/
def grow (source : String) : Growing Nat := do
  let reversed := (← (← get).config.automaton source).reverse
  (← get).config.checkLimit ((← get).states.length + reversed.size)
  let offset := (← get).states.length
  (List.range reversed.size).forM (growState offset reversed)
  let accepting := reversed.initial.toList.map (offset + ·)
  modify fun m ↦ { m with patterns := m.patterns ++ [⟨source, accepting⟩] }
  let m ← get
  let id := m.patterns.length - 1
  Logged.write .debug (s!"pattern {id}: {reversed.size} states from offset " ++
    s!"{offset}, {m.table.size} signals in table")
  return id

/-- What comes of a pattern, and the matcher after it. -/
def append (m : Matcher) (source : String) : Except CompileError Nat × Matcher :=
  (grow source).outcome m

/-- Compiles a pattern and adds it, for a matcher that is given up when this fails. -/
def appendLogged (m : Matcher) (source : String) : Compiling (Matcher × Nat) := do
  let left ← (grow source).run.run m
  let id ← left.1
  return (left.2, id)

/-- The program of the patterns added so far. -/
def program (m : Matcher) : Program :=
  .ofTables m.name m.states m.patterns m.table.signals

/-- Adds patterns one after the other; an error names the pattern by its place in the list, which
starts at `index`. -/
def appendAll (m : Matcher) (index : Nat) : List String → Compiling Matcher
  | [] => return m
  | source :: rest => do
    let (grown, _) ← ExceptT.adapt (.inPattern index) (m.appendLogged source)
    grown.appendAll (index + 1) rest

end Matcher

/-- Compiles patterns into one program under the usual configuration. -/
def compileLogged (name : String) (patterns : List String) : Compiling Program := do
  let m ← (Matcher.new name .default).appendAll 0 patterns
  let p := m.program
  Logged.write .info s!"Number of patterns: {p.patterns.length}"
  Logged.write .info s!"Number of states: {p.states.length}"
  Logged.write .info s!"Number of signals: {p.signals.length}"
  return p

def compile (name : String) (patterns : List String) : Except CompileError Program :=
  (compileLogged name patterns).run.value

end SignalRegex
