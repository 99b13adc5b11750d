import SignalRegex.Proofs.MergeFixedPoints

/-!
Merging comes to an end and never makes an automaton larger.

Both loops repeat a round for as long as the round reports a change (`Repeats`), and a round that
reports one leaves fewer states, so there is at most one round more than there are states. Edges do
not multiply on the way: states that come to share a name have their edges joined
(`Renaming.transitionCount_le`), and an edge that is turned around is still one edge
(`transitionCount_reverse_le`).
-/

set_option autoImplicit false

namespace SignalRegex.Automaton

variable {N M : Automaton} {f : Nat → Nat}

/-! ### Repeated rounds -/

/-- A round is repeated for as long as it reports a change. The last round, which reports none, is
counted too. -/
inductive Repeats (round : Automaton → Automaton × Bool) : Automaton → Nat → Automaton → Prop where
  | last {N : Automaton} : (round N).2 = false → Repeats round N 1 (round N).1
  | again {N M : Automaton} {rounds : Nat} :
      (round N).2 = true → Repeats round (round N).1 rounds M → Repeats round N (rounds + 1) M

theorem Repeats.rounds_pos {round : Automaton → Automaton × Bool} {rounds : Nat}
    (h : Repeats round N rounds M) : 0 < rounds := by
  cases h with
  | last _ => exact Nat.one_pos
  | again _ _ => exact Nat.succ_pos _

/-- One round of merging states with the same signature. -/
def mergeOnce (N : Automaton) : Automaton × Bool :=
  match N.mergeRound? with
  | none => (N, false)
  | some M => (M, true)

/-- One round of merging forwards as far as possible and then backwards as far as possible. -/
def mergeBothWays (N : Automaton) : Automaton × Bool :=
  (N.collapse.1.reverse.collapse.1.reverse, N.collapse.2 || N.collapse.1.reverse.collapse.2)

/-- Merging forwards is rounds of `mergeOnce`, and it reports a change when the first of them is not
the last. -/
theorem exists_repeats_collapse (N : Automaton) : ∃ rounds ≤ N.size + 1,
    Repeats mergeOnce N rounds N.collapse.1 ∧ (N.collapse.2 = true ↔ 1 < rounds) := by
  fun_induction collapse N with
  | case1 N hround =>
    have honce : N.mergeOnce = (N, false) := by rw [mergeOnce, hround]
    have hlast : Repeats mergeOnce N 1 N.mergeOnce.1 := .last (by rw [honce])
    rw [honce] at hlast
    exact ⟨1, Nat.succ_le_succ (Nat.zero_le _), hlast, by simp⟩
  | case2 N M hround ih =>
    have honce : N.mergeOnce = (M, true) := by rw [mergeOnce, hround]
    obtain ⟨rounds, hle, hrest, _⟩ := ih
    have hlt := size_mergeRound_lt_size hround
    refine ⟨rounds + 1, by omega, .again (by rw [honce]) (by rw [honce]; exact hrest), ?_⟩
    simpa using hrest.rounds_pos

theorem size_mergeBothWays_lt (h : N.mergeBothWays.2 = true) : N.mergeBothWays.1.size < N.size :=
  size_collapse_reverse_lt h

theorem exists_repeats_minimize (N : Automaton) :
    ∃ rounds ≤ N.size + 1, Repeats mergeBothWays N rounds N.minimize := by
  fun_induction minimize N with
  | case1 N forward backward hchanged ih =>
    obtain ⟨rounds, hle, hrest⟩ := ih
    have hlt : backward.1.reverse.size < N.size := size_mergeBothWays_lt hchanged
    exact ⟨rounds + 1, by omega, .again hchanged hrest⟩
  | case2 N forward backward hunchanged =>
    exact ⟨1, Nat.succ_le_succ (Nat.zero_le _), .last (Bool.not_eq_true _ ▸ hunchanged)⟩

/-! ### States -/

theorem size_collapse_lt_reachable (h : N.collapse.2 = true) :
    N.collapse.1.size < N.reachable.length := by
  cases hround : N.mergeRound? with
  | none => exact absurd h (by simp [collapse_snd_eq_false_iff.mpr hround])
  | some M =>
    rw [collapse_of_mergeRound?_eq_some hround]
    exact Nat.lt_of_le_of_lt (size_collapse M).1 (size_mergeRound_lt hround)

theorem mergeRound?_collapse (N : Automaton) : N.collapse.1.mergeRound? = none := by
  fun_induction collapse N with
  | case1 N hround => exact hround
  | case2 N M hround ih => exact ih

/-- What neither merging forwards nor reversal makes larger, merging in both directions does not
make larger. -/
theorem measure_minimize_le {μ : Automaton → Nat} (hcollapse : ∀ N, μ N.collapse.1 ≤ μ N)
    (hreverse : ∀ N, μ N.reverse ≤ μ N) (N : Automaton) : μ N.minimize ≤ μ N := by
  have hround : ∀ N, μ N.mergeBothWays.1 ≤ μ N := fun N ↦
    calc μ N.mergeBothWays.1
      _ ≤ μ N.collapse.1.reverse.collapse.1 := hreverse _
      _ ≤ μ N.collapse.1.reverse := hcollapse _
      _ ≤ μ N.collapse.1 := hreverse _
      _ ≤ μ N := hcollapse N
  fun_induction minimize N with
  | case1 N forward backward _ ih => exact ih.trans (hround N)
  | case2 N forward backward _ => exact hround N

theorem size_minimize_le (N : Automaton) : N.minimize.size ≤ N.size :=
  measure_minimize_le (fun N ↦ (size_collapse N).1) size_reverse_le N

/-! ### Edges -/

/-- Every edge under new names comes from an edge of the automaton, and no two have both names in
common. -/
theorem Renaming.transitionCount_le (h : Renaming N M f) :
    M.transitionCount ≤ N.transitionCount := by
  have hpairs : M.realPairs ⊆ N.realPairs.map (Prod.map f f) := by
    rintro ⟨a, b⟩ he
    obtain ⟨ha, cp, hread⟩ := mem_realPairs.mp he
    obtain ⟨i, hi, rfl⟩ := h.mem_reachable_iff.mp ha
    obtain ⟨j, hj, rfl⟩ := (h.reads i hi cp b).mp hread
    exact List.mem_map.mpr ⟨(i, j), mem_realPairs.mpr ⟨hi, cp, hj⟩, rfl⟩
  calc M.transitionCount
    _ = M.realPairs.length := transitionCount_eq_length M
    _ ≤ (N.realPairs.map (Prod.map f f)).length := (nodup_realPairs M).length_le_of_subset hpairs
    _ = N.transitionCount := by rw [List.length_map, transitionCount_eq_length]

theorem transitionCount_flip_le (N : Automaton) : N.flip.transitionCount ≤ N.transitionCount := by
  have hpairs : N.flip.realPairs ⊆ N.realPairs.map Prod.swap := by
    rintro ⟨a, b⟩ he
    obtain ⟨_, cp, hread⟩ := mem_realPairs.mp he
    obtain ⟨hb, hread⟩ := reads_flip.mp hread
    exact List.mem_map.mpr ⟨(b, a), mem_realPairs.mpr ⟨hb, cp, hread⟩, rfl⟩
  calc N.flip.transitionCount
    _ = N.flip.realPairs.length := transitionCount_eq_length N.flip
    _ ≤ (N.realPairs.map Prod.swap).length := (nodup_realPairs N.flip).length_le_of_subset hpairs
    _ = N.transitionCount := by rw [List.length_map, transitionCount_eq_length]

theorem transitionCount_reverse_le (N : Automaton) :
    N.reverse.transitionCount ≤ N.transitionCount :=
  (renaming_compact N.flip).transitionCount_le.trans (transitionCount_flip_le N)

theorem transitionCount_collapse_le (N : Automaton) :
    N.collapse.1.transitionCount ≤ N.transitionCount := by
  fun_induction collapse N with
  | case1 N hround => exact Nat.le_refl _
  | case2 N M hround ih =>
    obtain rfl := eq_merged_of_mergeRound? hround
    calc N.merged.compact.collapse.1.transitionCount
      _ ≤ N.merged.compact.transitionCount := ih
      _ ≤ N.merged.transitionCount := (renaming_compact _).transitionCount_le
      _ ≤ N.transitionCount := (renaming_merged N).transitionCount_le

theorem transitionCount_minimize_le (N : Automaton) :
    N.minimize.transitionCount ≤ N.transitionCount :=
  measure_minimize_le transitionCount_collapse_le transitionCount_reverse_le N

/-- Merging forwards and merging in both directions end after at most one round more than there are
states. Merging forwards leaves the automaton as it is when it reports no change, and otherwise
fewer states than could be reached; then no two states that can be reached agree on finality and
edges. A round in both directions that is repeated leaves fewer states, and in the end there are no
more states and no more labelled edges than before. -/
theorem merging_ends_and_never_grows (N : Automaton) :
    (∃ rounds ≤ N.size + 1,
      Repeats mergeOnce N rounds N.collapse.1 ∧ (N.collapse.2 = true ↔ 1 < rounds)) ∧
    (N.collapse.2 = false → N.collapse.1 = N) ∧
    (N.collapse.2 = true → N.collapse.1.size < N.reachable.length) ∧
    (∀ i ∈ N.collapse.1.reachable, ∀ j ∈ N.collapse.1.reachable,
      (i ∈ N.collapse.1.finals ↔ j ∈ N.collapse.1.finals) →
      (N.collapse.1.state i).real = (N.collapse.1.state j).real →
      (N.collapse.1.state i).epsilon = (N.collapse.1.state j).epsilon → i = j) ∧
    (∀ M : Automaton, M.mergeBothWays.2 = true → M.mergeBothWays.1.size < M.size) ∧
    (∃ rounds ≤ N.size + 1, Repeats mergeBothWays N rounds N.minimize) ∧
    N.minimize.size ≤ N.size ∧ N.minimize.transitionCount ≤ N.transitionCount := by
  refine ⟨exists_repeats_collapse N, collapse_fst_of_snd_eq_false, size_collapse_lt_reachable, ?_,
    fun M ↦ size_mergeBothWays_lt, exists_repeats_minimize N, size_minimize_le N,
    transitionCount_minimize_le N⟩
  intro i hi j hj hfinals hreal hepsilon
  refine mergeRound?_eq_none_iff_signature.mp (mergeRound?_collapse N) i hi j hj ?_
  refine signature_eq_iff.mpr ⟨hfinals, fun cp k ↦ ?_, fun k ↦ ?_⟩
  · rw [Reads, Reads, hreal]
  · rw [Slides, Slides, hepsilon]

end SignalRegex.Automaton
