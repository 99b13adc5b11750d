import Mathlib.Data.Set.Card
import SignalRegex.Proofs.Renumbering

/-!
The live states of an automaton, which are those on a way from an initial state to a final one, and
what reversal makes of them.

The reversed automaton is a copy of the live part with its edges turned around (`copies_reverse`),
and all its states are live (`trim_reverse`), so an automaton that was reversed twice is a copy of
the live part. Copies of the same part have as many states and as many edges
(`Copies.length_reachable`, `Copies.transitionCount`).
-/

set_option autoImplicit false

namespace SignalRegex.Automaton

variable {N M : Automaton} {f : Nat → Nat} {i j k : Nat} {w : List Nat}

/-! ### Reachable and live states -/

theorem mem_targets_iff : j ∈ N.targets i ↔ (∃ cp, N.Reads i cp j) ∨ N.Slides i j :=
  List.mem_append.trans (or_congr_left EdgeMap.mem_targets_iff)

theorem exists_path_of_mem_targets (h : j ∈ N.targets i) : ∃ w, N.Path i w j := by
  rcases mem_targets_iff.mp h with ⟨cp, label, hlabel, hcp⟩ | hslide
  · exact ⟨[cp], .ofReal hlabel hcp⟩
  · exact ⟨[], .ofEpsilon hslide⟩

theorem Path.reachable (h : N.Path i w j) (hi : i ∈ N.reachable) : j ∈ N.reachable := by
  induction h with
  | refl => exact hi
  | epsilon hslide _ ih => exact ih (Slides.reachable hslide hi)
  | real hlabel hcp _ ih => exact ih (Reads.reachable ⟨_, hlabel, hcp⟩ hi)

/-- The search finds the states to which a path leads from an initial one. -/
theorem mem_reachable_iff : i ∈ N.reachable ↔ ∃ k ∈ N.initial, ∃ w, N.Path k w i := by
  constructor
  · refine search_induction (P := fun i ↦ ∃ k ∈ N.initial, ∃ w, N.Path k w i) ?_ ?_ i
    · intro k hk
      exact ⟨k, hk, [], .refl k⟩
    · intro a ⟨k, hk, u, hu⟩ b hb
      obtain ⟨v, hv⟩ := exists_path_of_mem_targets hb
      exact ⟨k, hk, u ++ v, hu.trans hv⟩
  · intro ⟨k, hk, w, hw⟩
    exact hw.reachable (mem_reachable_of_mem_initial hk)

/-- The state is on a way from an initial state to a final one. -/
def Live (N : Automaton) (i : Nat) : Prop :=
  (∃ k ∈ N.initial, ∃ w, N.Path k w i) ∧ ∃ l ∈ N.finals, ∃ w, N.Path i w l

/-- Every state that can be reached is live. -/
def Trim (N : Automaton) : Prop :=
  ∀ i ∈ N.reachable, N.Live i

theorem Live.reachable (h : N.Live i) : i ∈ N.reachable :=
  mem_reachable_iff.mpr h.1

theorem Live.of_path (hi : i ∈ N.reachable) (hpath : N.Path i w j) (hj : N.Live j) : N.Live i := by
  obtain ⟨l, hl, v, hv⟩ := hj.2
  exact ⟨mem_reachable_iff.mp hi, l, hl, w ++ v, hpath.trans hv⟩

theorem Trim.live_iff (h : N.Trim) : N.Live i ↔ i ∈ N.reachable :=
  ⟨Live.reachable, h i⟩

/-- With its edges turned around an automaton reaches the states that are live. -/
theorem mem_reachable_flip : i ∈ N.flip.reachable ↔ N.Live i := by
  constructor
  · refine search_induction (P := N.Live) ?_ ?_ i
    · intro l hl
      obtain ⟨hfinal, hreach⟩ := mem_initial_flip.mp hl
      exact ⟨mem_reachable_iff.mp hreach, l, hfinal, [], .refl l⟩
    · intro a ha b hb
      rcases mem_targets_iff.mp hb with ⟨cp, hread⟩ | hslide
      · obtain ⟨hreach, label, hlabel, hcp⟩ := reads_flip.mp hread
        exact .of_path hreach (.ofReal hlabel hcp) ha
      · obtain ⟨hreach, hedge⟩ := slides_flip.mp hslide
        exact .of_path hreach (.ofEpsilon hedge) ha
  · intro ⟨hreach, l, hl, w, hw⟩
    have hi := mem_reachable_iff.mpr hreach
    clear hreach
    -- the induction follows the path to the final state, where the turned edges start
    induction hw with
    | refl l => exact mem_reachable_of_mem_initial (mem_initial_flip.mpr ⟨hl, hi⟩)
    | epsilon hslide _ ih =>
      have htail := ih hl (Slides.reachable hslide hi)
      exact Slides.reachable (slides_flip.mpr ⟨hi, hslide⟩) htail
    | real hlabel hcp _ ih =>
      have hread : N.Reads _ _ _ := ⟨_, hlabel, hcp⟩
      have htail := ih hl (hread.reachable hi)
      exact Reads.reachable (reads_flip.mpr ⟨hi, hread⟩) htail

/-! ### Copies -/

/-- Some states with their marks and edges. -/
structure Diagram where
  part : Nat → Prop
  initial : Nat → Prop
  finals : Nat → Prop
  reads : Nat → Nat → Nat → Prop
  slides : Nat → Nat → Prop

/-- The same states with their edges turned around and their marks exchanged. -/
def Diagram.backwards (D : Diagram) : Diagram where
  part := D.part
  initial := D.finals
  finals := D.initial
  reads i cp j := D.reads j cp i
  slides i j := D.slides j i

/-- The reachable part of an automaton. -/
def reached (N : Automaton) : Diagram where
  part := (· ∈ N.reachable)
  initial := (· ∈ N.initial)
  finals := (· ∈ N.finals)
  reads := N.Reads
  slides := N.Slides

/-- The live part of an automaton. -/
def live (N : Automaton) : Diagram where
  part := N.Live
  initial := (· ∈ N.initial)
  finals := (· ∈ N.finals)
  reads := N.Reads
  slides := N.Slides

/-- The reachable states of the automaton are those of the diagram under new names, which no two of
them share. -/
structure Copies (M : Automaton) (D : Diagram) (f : Nat → Nat) : Prop where
  reachable : ∀ k, k ∈ M.reachable ↔ ∃ i, D.part i ∧ f i = k
  inj : ∀ i, D.part i → ∀ j, D.part j → f i = f j → i = j
  initial : ∀ i, D.part i → (f i ∈ M.initial ↔ D.initial i)
  finals : ∀ i, D.part i → (f i ∈ M.finals ↔ D.finals i)
  reads : ∀ i, D.part i → ∀ j, D.part j → ∀ cp, M.Reads (f i) cp (f j) ↔ D.reads i cp j
  slides : ∀ i, D.part i → ∀ j, D.part j → (M.Slides (f i) (f j) ↔ D.slides i j)

variable {D : Diagram}

theorem Copies.mem_reachable (h : M.Copies D f) (hi : D.part i) : f i ∈ M.reachable :=
  (h.reachable _).mpr ⟨i, hi, rfl⟩

/-- The labelled edges of a copy all come from edges of the diagram. -/
theorem Copies.reads_iff_exists (h : M.Copies D f) (hi : D.part i) {cp : Nat} :
    M.Reads (f i) cp k ↔ ∃ j, D.part j ∧ D.reads i cp j ∧ f j = k := by
  constructor
  · intro hread
    obtain ⟨j, hj, rfl⟩ := (h.reachable k).mp (hread.reachable (h.mem_reachable hi))
    exact ⟨j, hj, (h.reads i hi j hj cp).mp hread, rfl⟩
  · rintro ⟨j, hj, hread, rfl⟩
    exact (h.reads i hi j hj cp).mpr hread

theorem Copies.slides_iff_exists (h : M.Copies D f) (hi : D.part i) :
    M.Slides (f i) k ↔ ∃ j, D.part j ∧ D.slides i j ∧ f j = k := by
  constructor
  · intro hslide
    obtain ⟨j, hj, rfl⟩ := (h.reachable k).mp (hslide.reachable (h.mem_reachable hi))
    exact ⟨j, hj, (h.slides i hi j hj).mp hslide, rfl⟩
  · rintro ⟨j, hj, hslide, rfl⟩
    exact (h.slides i hi j hj).mpr hslide

/-- The targets under their new names are those of the edges under new names. -/
theorem Renaming.mem_targets_iff (h : Renaming N M f) (hi : i ∈ N.reachable) :
    k ∈ M.targets (f i) ↔ ∃ j ∈ N.targets i, f j = k := by
  rw [Automaton.mem_targets_iff, h.slides i hi]
  constructor
  · rintro (⟨cp, hread⟩ | ⟨j, hslide, rfl⟩)
    · obtain ⟨j, hj, rfl⟩ := (h.reads i hi cp k).mp hread
      exact ⟨j, hj.mem_targets, rfl⟩
    · exact ⟨j, hslide.mem_targets, rfl⟩
  · rintro ⟨j, hj, rfl⟩
    rcases Automaton.mem_targets_iff.mp hj with ⟨cp, hread⟩ | hslide
    · exact Or.inl ⟨cp, (h.reads i hi cp _).mpr ⟨j, hread, rfl⟩⟩
    · exact Or.inr ⟨j, hslide, rfl⟩

theorem Renaming.mem_reachable_iff (h : Renaming N M f) :
    k ∈ M.reachable ↔ ∃ i ∈ N.reachable, f i = k := by
  constructor
  · refine search_induction (P := fun k ↦ ∃ i ∈ N.reachable, f i = k) ?_ ?_ k
    · intro k hk
      obtain ⟨i, hi, rfl⟩ := (h.initial k).mp hk
      exact ⟨i, mem_reachable_of_mem_initial hi, rfl⟩
    · rintro _ ⟨i, hi, rfl⟩ l hl
      obtain ⟨j, hj, rfl⟩ := (h.mem_targets_iff hi).mp hl
      exact ⟨j, mem_reachable_of_mem_targets hi hj, rfl⟩
  · rintro ⟨i, hi, rfl⟩
    have hboth : i ∈ N.reachable ∧ f i ∈ M.reachable := by
      refine search_induction (P := fun i ↦ i ∈ N.reachable ∧ f i ∈ M.reachable) ?_ ?_ i hi
      · intro a ha
        exact ⟨mem_reachable_of_mem_initial ha,
          mem_reachable_of_mem_initial ((h.initial _).mpr ⟨a, ha, rfl⟩)⟩
      · intro a ⟨ha, hfa⟩ b hb
        exact ⟨mem_reachable_of_mem_targets ha hb,
          mem_reachable_of_mem_targets hfa ((h.mem_targets_iff ha).mpr ⟨b, hb, rfl⟩)⟩
    exact hboth.2

/-- Where no two states share a name, the renamed automaton is a copy of the reachable part. -/
theorem Renaming.copies (h : Renaming N M f)
    (hinj : ∀ i ∈ N.reachable, ∀ j ∈ N.reachable, f i = f j → i = j) : M.Copies N.reached f := by
  have hname : ∀ {P : Nat → Prop} {j}, j ∈ N.reachable → (∀ k, P k → k ∈ N.reachable) →
      ((∃ k, P k ∧ f k = f j) ↔ P j) := by
    intro P j hj hreach
    constructor
    · rintro ⟨k, hk, heq⟩
      exact hinj k (hreach k hk) j hj heq ▸ hk
    · intro hP
      exact ⟨j, hP, rfl⟩
  refine ⟨fun k ↦ h.mem_reachable_iff, hinj, fun i hi ↦ ?_, h.finals, fun i hi j hj cp ↦ ?_,
    fun i hi j hj ↦ ?_⟩
  · exact (h.initial _).trans (hname hi fun _ ↦ mem_reachable_of_mem_initial)
  · exact (h.reads i hi cp _).trans (hname hj fun _ hread ↦ hread.reachable hi)
  · exact (h.slides i hi _).trans (hname hj fun _ hslide ↦ hslide.reachable hi)

theorem copies_compact (N : Automaton) : N.compact.Copies N.reached N.reachable.idxOf :=
  (renaming_compact N).copies fun _ hi _ _ heq ↦ (List.idxOf_inj hi).mp heq

/-- The reversed automaton is the live part backwards. -/
theorem copies_reverse (N : Automaton) :
    N.reverse.Copies N.live.backwards N.flip.reachable.idxOf := by
  have hcopy := copies_compact N.flip
  have hpart : ∀ {i}, N.Live i → i ∈ N.flip.reachable := mem_reachable_flip.mpr
  refine ⟨fun k ↦ ?_, fun i hi j hj ↦ ?_, fun i hi ↦ ?_, fun i hi ↦ ?_, fun i hi j hj cp ↦ ?_,
    fun i hi j hj ↦ ?_⟩
  · refine (hcopy.reachable k).trans (exists_congr fun i ↦ and_congr_left fun _ ↦ ?_)
    exact mem_reachable_flip
  · exact hcopy.inj i (hpart hi) j (hpart hj)
  · exact (hcopy.initial i (hpart hi)).trans
      (mem_initial_flip.trans (and_iff_left (Live.reachable hi)))
  · exact (hcopy.finals i (hpart hi)).trans mem_finals_flip
  · exact (hcopy.reads i (hpart hi) j (hpart hj) cp).trans
      (reads_flip.trans (and_iff_right (Live.reachable hj)))
  · exact (hcopy.slides i (hpart hi) j (hpart hj)).trans
      (slides_flip.trans (and_iff_right (Live.reachable hj)))

/-- A path between live states is walked back in the reversed automaton. -/
theorem Path.reverse (h : N.Path i w j) (hi : i ∈ N.reachable) (hj : N.Live j) :
    N.reverse.Path (N.flip.reachable.idxOf j) w.reverse (N.flip.reachable.idxOf i) := by
  have hcopy := copies_reverse N
  induction h with
  | refl => exact .refl _
  | epsilon hslide hrest ih =>
    have ht := Slides.reachable hslide hi
    have hedge := (hcopy.slides _ (.of_path ht hrest hj) _
      (.of_path hi (.epsilon hslide hrest) hj)).mpr hslide
    have hback := (ih ht hj).trans (.ofEpsilon hedge)
    rwa [List.append_nil] at hback
  | real hlabel hcp hrest ih =>
    have hread : N.Reads _ _ _ := ⟨_, hlabel, hcp⟩
    have ht := hread.reachable hi
    obtain ⟨label, hlabel', hcp'⟩ := (hcopy.reads _ (.of_path ht hrest hj) _
      (.of_path hi (.real hlabel hcp hrest) hj) _).mpr hread
    rw [List.reverse_cons]
    exact (ih ht hj).trans (.ofReal hlabel' hcp')

/-- No dead state is left in a reversed automaton. -/
theorem trim_reverse (N : Automaton) : N.reverse.Trim := by
  have hcopy := copies_reverse N
  intro k hk
  obtain ⟨i, hi, rfl⟩ := (hcopy.reachable k).mp hk
  obtain ⟨⟨a, ha, u, hu⟩, l, hl, v, hv⟩ := hi
  have hreach := mem_reachable_of_mem_initial ha
  have hlive : N.Live i := ⟨⟨a, ha, u, hu⟩, l, hl, v, hv⟩
  have hlive' : N.Live l := ⟨⟨a, ha, u ++ v, hu.trans hv⟩, l, hl, [], .refl l⟩
  constructor
  · exact ⟨_, (hcopy.initial l hlive').mpr hl, _, hv.reverse hlive.reachable hlive'⟩
  · exact ⟨_, (hcopy.finals a (.of_path hreach hu hlive)).mpr ha, _, hu.reverse hreach hlive⟩

/-- Where every state is live, an automaton is a copy of its live part. -/
theorem Trim.copies (h : N.Trim) : N.Copies N.live id := by
  refine ⟨fun k ↦ ?_, fun _ _ _ _ heq ↦ heq, fun _ _ ↦ Iff.rfl, fun _ _ ↦ Iff.rfl,
    fun _ _ _ _ _ ↦ Iff.rfl, fun _ _ _ _ ↦ Iff.rfl⟩
  rw [← h.live_iff]
  exact ⟨fun hk ↦ ⟨k, hk, rfl⟩, fun ⟨_, hi, heq⟩ ↦ heq ▸ hi⟩

/-- The reversal of a copy is a copy backwards. -/
theorem Copies.reverse (h : M.Copies D f) (hM : M.Trim) :
    M.reverse.Copies D.backwards (M.flip.reachable.idxOf ∘ f) := by
  have hcopy := copies_reverse M
  have hlive : ∀ i, D.part i → M.Live (f i) := fun i hi ↦ hM _ (h.mem_reachable hi)
  refine ⟨fun k ↦ ?_, fun i hi j hj heq ↦ ?_, fun i hi ↦ ?_, fun i hi ↦ ?_,
    fun i hi j hj cp ↦ ?_, fun i hi j hj ↦ ?_⟩
  · rw [hcopy.reachable]
    constructor
    · rintro ⟨a, ha, rfl⟩
      obtain ⟨i, hi, rfl⟩ := (h.reachable a).mp (Live.reachable ha)
      exact ⟨i, hi, rfl⟩
    · rintro ⟨i, hi, rfl⟩
      exact ⟨f i, hlive i hi, rfl⟩
  · exact h.inj i hi j hj (hcopy.inj _ (hlive i hi) _ (hlive j hj) heq)
  · exact (hcopy.initial _ (hlive i hi)).trans (h.finals i hi)
  · exact (hcopy.finals _ (hlive i hi)).trans (h.initial i hi)
  · exact (hcopy.reads _ (hlive i hi) _ (hlive j hj) cp).trans (h.reads j hj i hi cp)
  · exact (hcopy.slides _ (hlive i hi) _ (hlive j hj)).trans (h.slides j hj i hi)

/-! ### Counting -/

theorem ncard_mem_of_nodup {α : Type} [DecidableEq α] {l : List α} (h : l.Nodup) :
    Set.ncard {a | a ∈ l} = l.length := by
  rw [← List.coe_toFinset, Set.ncard_coe_finset, List.toFinset_card_of_nodup h]

theorem Copies.length_reachable (h : M.Copies D f) :
    M.reachable.length = Set.ncard {i | D.part i} := by
  have himage : {k | k ∈ M.reachable} = f '' {i | D.part i} := Set.ext h.reachable
  have hinj : Set.InjOn f {i | D.part i} := fun i hi j hj ↦ h.inj i hi j hj
  rw [← ncard_mem_of_nodup (nodup_reachable M), himage, hinj.ncard_image]

/-- The labelled edges between reachable states, as pairs of source and target. -/
def realPairs (N : Automaton) : List (Nat × Nat) :=
  N.reachable.flatMap fun i ↦ (N.state i).real.targets.map (i, ·)

theorem mem_realPairs {e : Nat × Nat} :
    e ∈ N.realPairs ↔ e.1 ∈ N.reachable ∧ ∃ cp, N.Reads e.1 cp e.2 := by
  rw [realPairs, List.mem_flatMap]
  constructor
  · rintro ⟨i, hi, he⟩
    obtain ⟨t, ht, rfl⟩ := List.mem_map.mp he
    exact ⟨hi, EdgeMap.mem_targets_iff.mp ht⟩
  · rintro ⟨hi, hread⟩
    exact ⟨e.1, hi, List.mem_map.mpr ⟨e.2, EdgeMap.mem_targets_iff.mpr hread, rfl⟩⟩

theorem nodup_realPairs (N : Automaton) : N.realPairs.Nodup := by
  refine List.nodup_flatMap.mpr ⟨fun i _ ↦ ?_, (nodup_reachable N).imp fun {a b} hne ↦ ?_⟩
  · have htargets : (N.state i).real.targets.Nodup :=
      (N.state i).real.increasing_targets.imp Nat.ne_of_lt
    exact htargets.map (Prod.mk_right_injective i)
  · intro e ha hb
    obtain ⟨s, _, rfl⟩ := List.mem_map.mp ha
    obtain ⟨t, _, heq⟩ := List.mem_map.mp hb
    exact hne (congrArg Prod.fst heq).symm

theorem transitionCount_eq_length (N : Automaton) : N.transitionCount = N.realPairs.length := by
  unfold transitionCount realPairs
  induction N.reachable with
  | nil => rfl
  | cons i rest ih =>
    rw [List.foldr_cons, ih, List.flatMap_cons, List.length_append, List.length_map,
      EdgeMap.targets, List.length_map]

theorem Copies.transitionCount (h : M.Copies D f) : M.transitionCount =
    Set.ncard {e : Nat × Nat | D.part e.1 ∧ D.part e.2 ∧ ∃ cp, D.reads e.1 cp e.2} := by
  have himage : {e | e ∈ M.realPairs} = Prod.map f f ''
      {e : Nat × Nat | D.part e.1 ∧ D.part e.2 ∧ ∃ cp, D.reads e.1 cp e.2} := by
    ext ⟨a, b⟩
    refine mem_realPairs.trans ⟨?_, ?_⟩
    · rintro ⟨ha, cp, hread⟩
      obtain ⟨i, hi, rfl⟩ := (h.reachable a).mp ha
      obtain ⟨j, hj, hread', rfl⟩ := (h.reads_iff_exists hi).mp hread
      exact ⟨(i, j), ⟨hi, hj, cp, hread'⟩, rfl⟩
    · rintro ⟨⟨i, j⟩, ⟨hi, hj, cp, hread⟩, heq⟩
      obtain ⟨rfl, rfl⟩ := Prod.mk.inj heq
      exact ⟨h.mem_reachable hi, cp, (h.reads i hi j hj cp).mpr hread⟩
  have hinj : Set.InjOn (Prod.map f f)
      {e : Nat × Nat | D.part e.1 ∧ D.part e.2 ∧ ∃ cp, D.reads e.1 cp e.2} := by
    rintro ⟨i, j⟩ ⟨hi, hj, _⟩ ⟨i', j'⟩ ⟨hi', hj', _⟩ heq
    obtain ⟨hfst, hsnd⟩ := Prod.mk.inj heq
    exact Prod.ext (h.inj i hi i' hi' hfst) (h.inj j hj j' hj' hsnd)
  rw [transitionCount_eq_length, ← ncard_mem_of_nodup (nodup_realPairs M), himage,
    hinj.ncard_image]

/-- A reversed automaton has no states beside the reachable ones. -/
theorem length_reachable_reverse (N : Automaton) :
    N.reverse.reachable.length = N.reverse.size := by
  have hlive : {i | i ∈ N.flip.reachable} = {i | N.Live i} := Set.ext fun _ ↦ mem_reachable_flip
  calc N.reverse.reachable.length
    _ = Set.ncard {i | N.Live i} := (copies_reverse N).length_reachable
    _ = N.flip.reachable.length := by rw [← hlive, ncard_mem_of_nodup (nodup_reachable _)]
    _ = N.reverse.size := (size_compact N.flip).symm

end SignalRegex.Automaton
