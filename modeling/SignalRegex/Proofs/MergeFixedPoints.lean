import SignalRegex.Proofs.LiveStates
import SignalRegex.Proofs.Reductions

/-!
When merging comes to rest.

A round merges nothing when no two reachable states agree on finality and edges, and this can be
seen on every copy of the automaton (`Copies.mergeRound?_eq_none_iff`). Where all states are live,
reversing twice gives a copy, so the automaton in which merging stops has nothing left to merge in
either direction (`settled_minimize_of_trim`).

Dead states break this. They keep states apart until the automaton is reversed, which drops them,
and if nothing was merged by then merging stops with states that agree from now on. This is the only
way in which merging stops early, and it does not happen twice, since the result has no dead states.
-/

set_option autoImplicit false

namespace SignalRegex.Automaton

variable {N M : Automaton} {D : Diagram} {f : Nat → Nat} {i j : Nat}

/-! ### States that agree -/

/-- Two states have the same signature when both or neither are final and they read and slide to the
same states. -/
theorem signature_eq_iff : N.signature i = N.signature j ↔ (i ∈ N.finals ↔ j ∈ N.finals) ∧
    (∀ cp k, N.Reads i cp k ↔ N.Reads j cp k) ∧ ∀ k, N.Slides i k ↔ N.Slides j k := by
  rw [signature, signature, Prod.mk.injEq, decide_eq_decide]
  refine and_congr_right fun _ ↦ ⟨fun hstate ↦ ?_, ?_⟩
  · simp only [Reads, Slides, hstate, implies_true, and_self]
  · rintro ⟨hreads, hslides⟩
    exact state_eq_of_edges_iff hreads hslides

namespace Diagram

/-- Both states or neither are final, and they have the same edges into the part. -/
def Agree (D : Diagram) (i j : Nat) : Prop :=
  (D.finals i ↔ D.finals j) ∧ (∀ k, D.part k → ∀ cp, D.reads i cp k ↔ D.reads j cp k) ∧
    ∀ k, D.part k → (D.slides i k ↔ D.slides j k)

/-- No two states agree. -/
def Distinct (D : Diagram) : Prop :=
  ∀ i, D.part i → ∀ j, D.part j → D.Agree i j → i = j

end Diagram

theorem Copies.signature_eq_iff (h : M.Copies D f) (hi : D.part i) (hj : D.part j) :
    M.signature (f i) = M.signature (f j) ↔ D.Agree i j := by
  rw [Automaton.signature_eq_iff, h.finals i hi, h.finals j hj, Diagram.Agree]
  refine and_congr_right fun _ ↦ ⟨fun ⟨hreads, hslides⟩ ↦ ⟨?_, ?_⟩,
    fun ⟨hreads, hslides⟩ ↦ ⟨?_, ?_⟩⟩
  · intro k hk cp
    rw [← h.reads i hi k hk, ← h.reads j hj k hk]
    exact hreads cp (f k)
  · intro k hk
    rw [← h.slides i hi k hk, ← h.slides j hj k hk]
    exact hslides (f k)
  · intro cp l
    rw [h.reads_iff_exists hi, h.reads_iff_exists hj]
    exact exists_congr fun k ↦ and_congr_right fun hk ↦ and_congr_left' (hreads k hk cp)
  · intro l
    rw [h.slides_iff_exists hi, h.slides_iff_exists hj]
    exact exists_congr fun k ↦ and_congr_right fun hk ↦ and_congr_left' (hslides k hk)

/-! ### Rounds that merge nothing -/

theorem representative_eq_of_signature_eq {order : List Nat} (hj : j ∈ order)
    (h : N.signature i = N.signature j) :
    N.representative order i = N.representative order j := by
  rw [representative_eq, representative_eq, h]
  cases hfind : order.find? fun k ↦ decide (N.signature k = N.signature j) with
  | none => exact absurd (decide_eq_true rfl) (List.find?_eq_none.mp hfind j hj)
  | some k => rfl

theorem mergeRound?_eq_none_iff_signature : N.mergeRound? = none ↔
    ∀ i ∈ N.reachable, ∀ j ∈ N.reachable, N.signature i = N.signature j → i = j := by
  have hround : N.mergeRound? = none ↔
      ∀ i ∈ N.reachable, N.representative N.reachable i = i := by
    unfold mergeRound?
    dsimp only
    split_ifs with hall
    · simpa using hall
    · simpa using hall
  rw [hround]
  constructor
  · intro h i hi j hj hsame
    rw [← h i hi, ← h j hj]
    exact representative_eq_of_signature_eq hj hsame
  · intro h i hi
    exact h _ (representative_mem hi) i hi (signature_representative N _ i)

/-- Whether a round merges anything can be seen on the part of which the automaton is a copy. -/
theorem Copies.mergeRound?_eq_none_iff (h : M.Copies D f) :
    M.mergeRound? = none ↔ D.Distinct := by
  rw [mergeRound?_eq_none_iff_signature]
  constructor
  · intro hdistinct i hi j hj hagree
    have hsame := (h.signature_eq_iff hi hj).mpr hagree
    exact h.inj i hi j hj (hdistinct _ (h.mem_reachable hi) _ (h.mem_reachable hj) hsame)
  · intro hdistinct a ha b hb hsame
    obtain ⟨i, hi, rfl⟩ := (h.reachable a).mp ha
    obtain ⟨j, hj, rfl⟩ := (h.reachable b).mp hb
    exact congrArg f (hdistinct i hi j hj ((h.signature_eq_iff hi hj).mp hsame))

theorem collapse_snd_eq_false_iff : N.collapse.2 = false ↔ N.mergeRound? = none := by
  rw [collapse]
  split
  · rename_i hnone
    exact iff_of_true rfl hnone
  · rename_i hsome
    rw [hsome]
    exact iff_of_false Bool.true_eq_false.mp nofun

theorem Copies.collapse_snd_eq_false_iff (h : M.Copies D f) : M.collapse.2 = false ↔ D.Distinct :=
  Automaton.collapse_snd_eq_false_iff.trans h.mergeRound?_eq_none_iff

theorem collapse_fst_of_snd_eq_false (h : N.collapse.2 = false) : N.collapse.1 = N :=
  collapse_of_mergeRound?_eq_none (collapse_snd_eq_false_iff.mp h)

/-! ### Merging in both directions -/

/-- There is nothing left to merge forwards or backwards, and minimizing once more leaves as many
states and edges. -/
structure Settled (M : Automaton) : Prop where
  forwards : M.collapse.2 = false
  backwards : M.reverse.collapse.2 = false
  size : M.minimize.size = M.size
  transitions : M.minimize.transitionCount = M.transitionCount

theorem minimize_of_unchanged (hforward : N.collapse.2 = false)
    (hbackward : N.reverse.collapse.2 = false) : N.minimize = N.reverse.reverse := by
  rw [minimize, hforward, Bool.false_or, collapse_fst_of_snd_eq_false hforward, hbackward,
    collapse_fst_of_snd_eq_false hbackward]
  exact if_neg Bool.false_ne_true

/-- Either nothing is merged, and the automaton is only reversed twice, or merging goes on with an
automaton that was reversed. -/
theorem minimize_cases (N : Automaton) :
    (N.collapse.2 = false ∧ N.reverse.collapse.2 = false ∧ N.minimize = N.reverse.reverse) ∨
      ((N.collapse.2 = true ∨ N.reverse.collapse.2 = true) ∧
        ∃ M : Automaton, N.minimize = M.reverse.minimize) := by
  cases hforward : N.collapse.2 with
  | true =>
    rw [minimize, hforward, Bool.true_or, if_pos rfl]
    exact Or.inr ⟨Or.inl rfl, _, rfl⟩
  | false =>
    cases hbackward : N.reverse.collapse.2 with
    | true =>
      rw [minimize, hforward, Bool.false_or, collapse_fst_of_snd_eq_false hforward]
      exact Or.inr ⟨Or.inr rfl, _, if_pos hbackward⟩
    | false => exact Or.inl ⟨rfl, rfl, minimize_of_unchanged hforward hbackward⟩

theorem exists_minimize_eq_reverse (N : Automaton) : ∃ M : Automaton, N.minimize = M.reverse := by
  fun_induction minimize N with
  | case1 N forward backward _ ih => exact ih
  | case2 N forward backward _ => exact ⟨_, rfl⟩

theorem trim_minimize (N : Automaton) : N.minimize.Trim := by
  obtain ⟨M, hM⟩ := exists_minimize_eq_reverse N
  exact hM ▸ trim_reverse M

/-- A copy of a part in which no two states agree forwards and none backwards. -/
theorem Copies.settled (h : M.Copies D f) (htrim : M.Trim)
    (hsize : M.reachable.length = M.size) (hforward : D.Distinct)
    (hbackward : D.backwards.Distinct) : M.Settled := by
  have hback := h.reverse htrim
  have htwice := hback.reverse (trim_reverse M)
  have hforwards := h.collapse_snd_eq_false_iff.mpr hforward
  have hbackwards := hback.collapse_snd_eq_false_iff.mpr hbackward
  have hminimize := minimize_of_unchanged hforwards hbackwards
  refine ⟨hforwards, hbackwards, ?_, ?_⟩
  · rw [hminimize, ← length_reachable_reverse, htwice.length_reachable, ← hsize,
      h.length_reachable]
    rfl
  · rw [hminimize, htwice.transitionCount, h.transitionCount]
    rfl

/-- An automaton that was reversed twice is a copy of its live part, so it has nothing left to merge
where no two live states agree. -/
theorem settled_reverse_reverse (hforward : N.live.Distinct)
    (hbackward : N.reverse.collapse.2 = false) : N.reverse.reverse.Settled := by
  have hback := copies_reverse N
  have htwice := hback.reverse (trim_reverse N)
  exact htwice.settled (trim_reverse _) (length_reachable_reverse _) hforward
    (hback.collapse_snd_eq_false_iff.mp hbackward)

/-- Without dead states merging stops when there is nothing left to merge. -/
theorem settled_minimize_of_trim (htrim : N.Trim) : N.minimize.Settled := by
  fun_induction minimize N with
  | case1 N forward backward _ ih => exact ih (trim_reverse _)
  | case2 N forward backward hunchanged =>
    obtain ⟨hforward, hbackward⟩ := Bool.or_eq_false_iff.mp (Bool.not_eq_true _ ▸ hunchanged)
    have hstays : forward.1 = N := collapse_fst_of_snd_eq_false hforward
    have hbackward' : N.reverse.collapse.2 = false := hstays ▸ hbackward
    have hend : backward.1 = N.reverse :=
      (collapse_fst_of_snd_eq_false hbackward).trans (congrArg reverse hstays)
    rw [hend]
    exact settled_reverse_reverse (htrim.copies.collapse_snd_eq_false_iff.mp hforward) hbackward'

/-- Merging stops with nothing left to merge backwards. It also stops with nothing left to merge
forwards, except where the automaton has two live states that differ in their edges to dead states
alone, and nothing else to merge in either direction. Minimizing twice is always enough. -/
theorem settled_minimize_iff (N : Automaton) :
    N.minimize.reverse.collapse.2 = false ∧
      (N.minimize.Settled ↔
        N.collapse.2 = true ∨ N.reverse.collapse.2 = true ∨ N.live.Distinct) ∧
      N.minimize.minimize.Settled := by
  refine ⟨?_, ?_, settled_minimize_of_trim (trim_minimize N)⟩
  · rcases minimize_cases N with ⟨_, hbackward, heq⟩ | ⟨_, M, heq⟩
    · have hback := copies_reverse N
      have hthrice := (hback.reverse (trim_reverse N)).reverse (trim_reverse _)
      rw [heq]
      exact hthrice.collapse_snd_eq_false_iff.mpr (hback.collapse_snd_eq_false_iff.mp hbackward)
    · rw [heq]
      exact (settled_minimize_of_trim (trim_reverse M)).backwards
  · rcases minimize_cases N with ⟨hforward, hbackward, heq⟩ | ⟨hchanged, M, heq⟩
    · rw [heq, hforward, hbackward]
      have htwice := (copies_reverse N).reverse (trim_reverse N)
      constructor
      · intro hsettled
        exact Or.inr (Or.inr (htwice.collapse_snd_eq_false_iff.mp hsettled.forwards))
      · rintro (h | h | hdistinct)
        · exact absurd h Bool.false_ne_true
        · exact absurd h Bool.false_ne_true
        · exact settled_reverse_reverse hdistinct hbackward
    · rw [heq]
      refine iff_of_true (settled_minimize_of_trim (trim_reverse M)) ?_
      exact hchanged.imp_right Or.inl

/-- One letter over and over, and from the first state a second letter into a dead state. -/
def strayEdge : Automaton :=
  .ofEdges 3 [⟨0, .ofRange (.ofChar 'a'), 1⟩, ⟨1, .ofRange (.ofChar 'a'), 1⟩,
    ⟨0, .ofRange (.ofChar 'b'), 2⟩] [] [0] [0, 1]

/-- Merging stops early: two states that only the dead state kept apart are left, and are merged
when the automaton is minimized again. -/
theorem minimize_stops_early : strayEdge.minimize.collapse.2 = true ∧
    strayEdge.minimize.size = 2 ∧ strayEdge.minimize.minimize.size = 1 := by
  decide +kernel

end SignalRegex.Automaton
