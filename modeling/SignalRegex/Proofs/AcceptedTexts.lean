import SignalRegex.Proofs.CompiledPatterns
import SignalRegex.Proofs.Fragments

/-!
The texts that automata accept, stage by stage, in terms of paths.

The automaton of a pattern accepts what the pattern matches. Removing its epsilon edges and merging
its states leave the accepted texts as they are, and without epsilon edges every path goes along
labelled edges, which are the only ones that a matcher reads. Reversal turns the accepted texts
around.
-/

set_option autoImplicit false

namespace SignalRegex.Automaton

/-! ### Construction -/

/-- The automaton of a pattern accepts what the pattern matches, given that every sequence in the
pattern has a part. -/
theorem accepts_ofRegex_iff_matches (r : Regex) (hr : r.Proper) (w : List Nat) :
    (ofRegex r).Accepts w ↔ r.Matches w :=
  accepts_iff_acceptsBy_member.trans (acceptsBy_ofRegex hr)

/-- A choice between a repetition and an option, `a*|b?`. -/
def loopChoice : Regex :=
  .alternate [.star (.set (.ofRange (.ofChar 'a'))), .maybe (.set (.ofRange (.ofChar 'b')))]

theorem proper_loopChoice : loopChoice.Proper := by
  refine .alternate fun r hr ↦ ?_
  rcases List.mem_pair.mp hr with rfl | rfl
  · exact .star (.set _)
  · exact .maybe (.set _)

/-- The text `aba` goes through the loop three times, by both choices. -/
theorem matches_plus_loopChoice : (Regex.plus loopChoice).Matches [97, 98, 97] := by
  have hfirst : loopChoice.Matches [97] := by
    refine .alternate List.mem_cons_self (.starCons (u := [97]) (.set ?_) .starNil)
    decide
  have hsecond : loopChoice.Matches [98] := by
    refine .alternate (List.mem_cons_of_mem _ List.mem_cons_self) (.maybe (.set ?_))
    decide
  exact .plus hfirst (.starCons hsecond (.starCons hfirst .starNil))

/-- A loop around a repetition and an option accepts what goes through both. -/
theorem accepts_ofRegex_plus_loopChoice : (Regex.plus loopChoice).Proper ∧
    (ofRegex (.plus loopChoice)).Accepts [97, 98, 97] :=
  ⟨.plus proper_loopChoice, (accepts_ofRegex_iff_matches _ (.plus proper_loopChoice) _).mpr
    matches_plus_loopChoice⟩

/-! ### Removal of epsilon edges -/

/-- Without epsilon edges a path goes along labelled edges alone. -/
theorem EpsilonFree.path_iff {N : Automaton} (h : N.EpsilonFree) {i j : Nat} {w : List Nat} :
    N.Path i w j ↔ Chain N.Reads (fun _ _ ↦ False) i w j := by
  rw [path_iff_chain]
  constructor
  · exact Chain.imp (fun _ _ _ _ hread ↦ hread) h
  · exact Chain.imp (fun _ _ _ _ hread ↦ hread) fun _ _ hfalse ↦ hfalse.elim

/-- Removing the epsilon edges keeps the accepted texts. They are all gone, and stay so through any
sequence of passes, so that every path is one of labelled edges. What a matcher installs for a
pattern comes from such a sequence. -/
theorem accepts_withoutEpsilon_and_epsilonFree (N : Automaton) :
    (∀ w, N.withoutEpsilon.Accepts w ↔ N.Accepts w) ∧ N.withoutEpsilon.EpsilonFree ∧
      (∀ passes : List Pass, (Pass.runAll passes N.withoutEpsilon).EpsilonFree ∧
        ∀ i w j, (Pass.runAll passes N.withoutEpsilon).Path i w j ↔
          Chain (Pass.runAll passes N.withoutEpsilon).Reads (fun _ _ ↦ False) i w j) ∧
      ∀ (c : Matcher.Config) (r : Regex),
        c.compiled r = Pass.runAll c.passes (ofRegex r).withoutEpsilon := by
  have hfree := epsilonFree_withoutEpsilon N
  refine ⟨fun w ↦ ?_, hfree, fun passes ↦ ?_, Matcher.Config.compiled_eq_runAll⟩
  · rw [accepts_iff_acceptsBy_member, accepts_iff_acceptsBy_member]
    exact acceptsBy_withoutEpsilon
  · exact ⟨hfree.runAll passes, fun _ _ _ ↦ (hfree.runAll passes).path_iff⟩

/-! ### Merging -/

theorem Refines.accepts_iff_accepts {N M : Automaton} (h : N.Refines M) (w : List Nat) :
    M.Accepts w ↔ N.Accepts w := by
  rw [accepts_iff_acceptsBy_member, accepts_iff_acceptsBy_member]
  exact h.accepts_iff.symm

/-- Merging forwards, and merging in both directions, keep the accepted texts. -/
theorem accepts_collapse_and_minimize (N : Automaton) (w : List Nat) :
    (N.collapse.1.Accepts w ↔ N.Accepts w) ∧ (N.minimize.Accepts w ↔ N.Accepts w) :=
  ⟨(refines_collapse N).accepts_iff_accepts w, (refines_minimize N).accepts_iff_accepts w⟩

/-! ### Reversal -/

theorem accepts_reverse_iff {N : Automaton} {w : List Nat} :
    N.reverse.Accepts w ↔ N.Accepts w.reverse := by
  rw [accepts_iff_acceptsBy_member, accepts_iff_acceptsBy_member]
  exact acceptsBy_reverse

/-- The reverse of an automaton accepts the reverses of the texts that the automaton accepts, and
reversing twice gives these texts back. Epsilon edges, states out of reach and states without a way
to a final state are no exception. -/
theorem accepts_reverse_and_reverse_reverse (N : Automaton) (w : List Nat) :
    (N.reverse.Accepts w ↔ N.Accepts w.reverse) ∧
      (N.reverse.reverse.Accepts w ↔ N.Accepts w) := by
  have htwice : N.reverse.reverse.Accepts w ↔ N.Accepts w.reverse.reverse :=
    accepts_reverse_iff.trans accepts_reverse_iff
  rw [List.reverse_reverse] at htwice
  exact ⟨accepts_reverse_iff, htwice⟩

end SignalRegex.Automaton
