import SignalRegex.Automaton.Basic

/-!
Paths of an automaton and the texts it accepts. A labelled edge reads one code point of its label
and an epsilon edge reads nothing.
-/

set_option autoImplicit false

namespace SignalRegex.Automaton

/-- A text can be read on the way from one state to another. -/
inductive Path (N : Automaton) : Nat → List Nat → Nat → Prop where
  | refl (i : Nat) : Path N i [] i
  | epsilon {i t j : Nat} {w : List Nat} :
      t ∈ (N.state i).epsilon → Path N t w j → Path N i w j
  | real {i t j cp : Nat} {label : CharSet} {w : List Nat} :
      (t, label) ∈ (N.state i).real.toList → cp ∈ label → Path N t w j → Path N i (cp :: w) j

/-- A text can be read on the way from an initial state to a final one. -/
def Accepts (N : Automaton) (w : List Nat) : Prop :=
  ∃ i ∈ N.initial, ∃ f ∈ N.finals, N.Path i w f

namespace Path

theorem trans {N : Automaton} {i j k : Nat} {u v : List Nat} (hu : N.Path i u j)
    (hv : N.Path j v k) : N.Path i (u ++ v) k := by
  induction hu with
  | refl => exact hv
  | epsilon ht _ ih => exact .epsilon ht (ih hv)
  | real ht hcp _ ih => exact .real ht hcp (ih hv)

theorem ofEpsilon {N : Automaton} {i t : Nat} (ht : t ∈ (N.state i).epsilon) : N.Path i [] t :=
  .epsilon ht (.refl t)

theorem ofReal {N : Automaton} {i t cp : Nat} {label : CharSet}
    (ht : (t, label) ∈ (N.state i).real.toList) (hcp : cp ∈ label) : N.Path i [cp] t :=
  .real ht hcp (.refl t)

end Path

end SignalRegex.Automaton
