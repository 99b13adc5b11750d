import SignalRegex.Program.Basic

/-!
Runs of a program, as chains of states: a run starts in an initial state and follows, for each code
point, an edge whose condition holds there.
-/

set_option autoImplicit false

namespace SignalRegex

/-- A condition holds at a code point, given the signals it may name. A signal that is not there
contains nothing. -/
def Condition.HoldsAt (signals : List RangeSignal) (cp : Nat) : Condition → Prop
  | .never => False
  | .always => True
  | .signal id negated => (∃ s ∈ signals[id]?, s.contains cp = true) ↔ negated = false

namespace Program

/-- Some run reads the text and ends in the state at position `q`. -/
inductive Run (p : Program) : List Nat → Nat → Prop where
  | initial {q : Nat} {s : State} : p.states[q]? = some s → s.initial = true → Run p [] q
  | step {w : List Nat} {cp q : Nat} {s : State} {e : Edge} :
      p.states[q]? = some s → e ∈ s.incoming → e.condition.HoldsAt p.signals cp →
        Run p w e.source → Run p (w ++ [cp]) q

/-- A run of the text ends in an accepting state of the pattern. -/
def MatchesAt (p : Program) (q : Pattern) (w : List Nat) : Prop :=
  ∃ s ∈ q.accepting, p.Run w s

end Program

end SignalRegex
