import SignalRegex.Automaton.Compact
import SignalRegex.Proofs.Chains

/-!
Renumbering keeps what an automaton accepts, and reversal accepts the texts read backwards
(`acceptsBy_compact`, `acceptsBy_reverse`). Both hold under every reading of the labels, since no
two edges are joined on the way.
-/

set_option autoImplicit false

namespace SignalRegex.Automaton

variable {N M : Automaton} {ρ : Reading} {f : Nat → Nat} {i j cp : Nat} {w : List Nat}

theorem Reads.reachable (h : N.Reads i cp j) (hi : i ∈ N.reachable) : j ∈ N.reachable :=
  mem_reachable_of_mem_targets hi h.mem_targets

theorem ReadsBy.reachable (h : N.ReadsBy ρ i cp j) (hi : i ∈ N.reachable) : j ∈ N.reachable :=
  mem_reachable_of_mem_targets hi h.mem_targets

theorem Slides.reachable (h : N.Slides i j) (hi : i ∈ N.reachable) : j ∈ N.reachable :=
  mem_reachable_of_mem_targets hi h.mem_targets

/-! ### New names for states -/

/-- The second automaton is the reachable part of the first under new names, which several states
may share. -/
structure Renaming (N M : Automaton) (f : Nat → Nat) : Prop where
  initial : ∀ k, k ∈ M.initial ↔ ∃ i ∈ N.initial, f i = k
  reads : ∀ i ∈ N.reachable, ∀ cp k, M.Reads (f i) cp k ↔ ∃ j, N.Reads i cp j ∧ f j = k
  slides : ∀ i ∈ N.reachable, ∀ k, M.Slides (f i) k ↔ ∃ j, N.Slides i j ∧ f j = k
  finals : ∀ i ∈ N.reachable, (f i ∈ M.finals ↔ i ∈ N.finals)

theorem Renaming.accepts (h : Renaming N M f) (hw : N.AcceptsBy ρ w) : M.AcceptsBy ρ w := by
  have hsim : Simulation N M ρ fun i k ↦ i ∈ N.reachable ∧ f i = k := by
    refine ⟨?_, ?_, ?_, ?_⟩
    · intro i hi
      exact ⟨f i, (h.initial _).mpr ⟨i, hi, rfl⟩, mem_reachable_of_mem_initial hi, rfl⟩
    · rintro i k ⟨hi, rfl⟩ cp j hread
      refine ⟨f j, hread.of_reads fun c hc ↦ ?_, hread.reachable hi, rfl⟩
      exact (h.reads i hi c _).mpr ⟨j, hc, rfl⟩
    · rintro i k ⟨hi, rfl⟩ j hslide
      exact ⟨f j, (h.slides i hi _).mpr ⟨j, hslide, rfl⟩, hslide.reachable hi, rfl⟩
    · rintro i k ⟨hi, rfl⟩ hf
      exact (h.finals i hi).mpr hf
  exact hsim.accepts hw

/-- The way back needs that an edge under a new name is read where one of the old edges is. -/
theorem Renaming.sound (h : Renaming N M f)
    (hreads : ∀ i ∈ N.reachable, ∀ cp k, M.ReadsBy ρ (f i) cp k → ∃ j, N.ReadsBy ρ i cp j ∧ f j = k)
    (hw : M.AcceptsBy ρ w) : N.AcceptsBy ρ w := by
  have hsim : Simulation M N ρ fun k i ↦ i ∈ N.reachable ∧ f i = k := by
    refine ⟨?_, ?_, ?_, ?_⟩
    · intro k hk
      obtain ⟨i, hi, heq⟩ := (h.initial k).mp hk
      exact ⟨i, hi, mem_reachable_of_mem_initial hi, heq⟩
    · rintro k i ⟨hi, rfl⟩ cp l hread
      obtain ⟨j, hj, hl⟩ := hreads i hi cp l hread
      exact ⟨j, hj, hj.reachable hi, hl⟩
    · rintro k i ⟨hi, rfl⟩ l hslide
      obtain ⟨j, hj, hl⟩ := (h.slides i hi l).mp hslide
      exact ⟨j, hj, hj.reachable hi, hl⟩
    · rintro k i ⟨hi, rfl⟩ hk
      exact (h.finals i hi).mp hk
  exact hsim.accepts hw

/-- Where states share a name their labels are joined, which membership does not notice. -/
theorem Renaming.refines (h : Renaming N M f) : N.Refines M where
  keeps _ _ := h.accepts
  sound _ := h.sound fun i hi cp k ↦ (h.reads i hi cp k).mp

/-- Where no two states share a name no labels are joined. -/
theorem Renaming.acceptsBy_iff (h : Renaming N M f)
    (hinj : ∀ i ∈ N.reachable, ∀ j ∈ N.reachable, f i = f j → i = j) :
    M.AcceptsBy ρ w ↔ N.AcceptsBy ρ w := by
  refine ⟨h.sound fun i hi cp k hread ↦ ?_, h.accepts⟩
  obtain ⟨c, hc⟩ := hread.exists_reads
  obtain ⟨j, hj, rfl⟩ := (h.reads i hi c k).mp hc
  refine ⟨j, hread.of_reads fun d hd ↦ ?_, rfl⟩
  obtain ⟨j', hj', hsame⟩ := (h.reads i hi d _).mp hd
  exact hinj j' (hj'.reachable hi) j (hj.reachable hi) hsame ▸ hj'

/-! ### Renumbering -/

theorem idxOf_reachable_lt (hi : i ∈ N.reachable) : N.reachable.idxOf i < N.reachable.length :=
  List.idxOf_lt_length_iff.mpr hi

/-- Every reachable state stands for its place in breadth-first order. -/
theorem renaming_compact (N : Automaton) : Renaming N N.compact N.reachable.idxOf := by
  refine ⟨?_, ?_, ?_, ?_⟩
  · intro k
    rw [compact, mem_initial_ofEdges, List.mem_map]
    refine and_iff_left_of_imp fun ⟨i, hi, hk⟩ ↦ ?_
    exact hk ▸ idxOf_reachable_lt (mem_reachable_of_mem_initial hi)
  · intro i hi cp k
    rw [compact, reads_ofEdges_map (fun a _ ↦ N.reachable.idxOf a) fun _ b ↦ N.reachable.idxOf b]
    constructor
    · rintro ⟨_, _, a, ha, j, hread, hsource, htarget⟩
      obtain rfl := (List.idxOf_inj ha).mp hsource
      exact ⟨j, hread, htarget⟩
    · rintro ⟨j, hread, rfl⟩
      exact ⟨idxOf_reachable_lt hi, idxOf_reachable_lt (hread.reachable hi), i, hi, j, hread, rfl,
        rfl⟩
  · intro i hi k
    rw [compact, slides_ofEdges_map]
    constructor
    · rintro ⟨_, _, a, ha, j, hslide, heq⟩
      obtain ⟨hsource, htarget⟩ := Prod.mk.inj heq
      obtain rfl := (List.idxOf_inj ha).mp hsource
      exact ⟨j, hslide, htarget⟩
    · rintro ⟨j, hslide, rfl⟩
      exact ⟨idxOf_reachable_lt hi, idxOf_reachable_lt (hslide.reachable hi), i, hi, j, hslide, rfl⟩
  · intro i hi
    rw [compact, mem_finals_ofEdges, List.mem_map]
    constructor
    · rintro ⟨⟨f, hf, heq⟩, _⟩
      exact (List.idxOf_inj hi).mp heq.symm ▸ hf
    · intro hf
      exact ⟨⟨i, hf, rfl⟩, idxOf_reachable_lt hi⟩

theorem acceptsBy_compact : N.compact.AcceptsBy ρ w ↔ N.AcceptsBy ρ w :=
  (renaming_compact N).acceptsBy_iff fun _ hi _ _ heq ↦ (List.idxOf_inj hi).mp heq

/-! ### Reversal -/

theorem lt_of_mem_reachable (hi : i ∈ N.reachable) : i < N.size :=
  lt_of_mem_search hi

theorem reads_flip : N.flip.Reads i cp j ↔ j ∈ N.reachable ∧ N.Reads j cp i := by
  rw [flip, reads_ofEdges_map (fun _ b ↦ b) fun a _ ↦ a]
  constructor
  · rintro ⟨_, _, a, ha, b, hread, rfl, rfl⟩
    exact ⟨ha, hread⟩
  · rintro ⟨hj, hread⟩
    exact ⟨hread.lt.2, hread.lt.1, j, hj, i, hread, rfl, rfl⟩

theorem slides_flip : N.flip.Slides i j ↔ j ∈ N.reachable ∧ N.Slides j i := by
  rw [flip, slides_ofEdges_map]
  constructor
  · rintro ⟨_, _, a, ha, b, hslide, heq⟩
    obtain ⟨rfl, rfl⟩ := Prod.mk.inj heq
    exact ⟨ha, hslide⟩
  · rintro ⟨hj, hslide⟩
    exact ⟨hslide.lt.2, hslide.lt.1, j, hj, i, hslide, rfl⟩

theorem readsBy_flip : N.flip.ReadsBy ρ i cp j ↔ j ∈ N.reachable ∧ N.ReadsBy ρ j cp i := by
  constructor
  · intro h
    obtain ⟨c, hc⟩ := h.exists_reads
    exact ⟨(reads_flip.mp hc).1, h.of_reads fun d hd ↦ (reads_flip.mp hd).2⟩
  · intro ⟨hj, h⟩
    exact h.of_reads fun c hc ↦ reads_flip.mpr ⟨hj, hc⟩

theorem mem_initial_flip : i ∈ N.flip.initial ↔ i ∈ N.finals ∧ i ∈ N.reachable := by
  rw [flip, mem_initial_ofEdges, List.mem_filter, decide_eq_true_eq]
  exact and_iff_left_of_imp fun h ↦ lt_of_mem_reachable h.2

theorem mem_finals_flip : i ∈ N.flip.finals ↔ i ∈ N.initial := by
  rw [flip, mem_finals_ofEdges]
  exact and_iff_left_of_imp fun h ↦ N.initial_lt i h

theorem acceptsBy_flip : N.flip.AcceptsBy ρ w ↔ N.AcceptsBy ρ w.reverse := by
  constructor
  · intro ⟨f, hf, i, hi, hchain⟩
    refine ⟨i, mem_finals_flip.mp hi, f, (mem_initial_flip.mp hf).1, ?_⟩
    exact hchain.backwards.imp (fun _ _ _ _ h ↦ (readsBy_flip.mp h).2)
      fun _ _ h ↦ (slides_flip.mp h).2
  · intro ⟨i, hi, f, hf, hchain⟩
    -- only edges out of reachable states are turned around, and only reachable exits become entries
    have hreach := mem_reachable_of_mem_initial hi
    have hend : f ∈ N.reachable := hchain.invariant (fun _ ha _ _ h ↦ h.reachable ha)
      (fun _ ha _ h ↦ h.reachable ha) hreach
    refine ⟨f, mem_initial_flip.mpr ⟨hf, hend⟩, i, mem_finals_flip.mpr hi, ?_⟩
    have hwithin := hchain.within (fun _ ha _ _ h ↦ h.reachable ha)
      (fun _ ha _ h ↦ h.reachable ha) hreach
    have hback := hwithin.backwards
    rw [List.reverse_reverse] at hback
    exact hback.imp (fun _ _ _ _ h ↦ readsBy_flip.mpr h) fun _ _ h ↦ slides_flip.mpr h

/-- The reversed automaton accepts a text where the automaton accepts it read backwards. -/
theorem acceptsBy_reverse : N.reverse.AcceptsBy ρ w ↔ N.AcceptsBy ρ w.reverse :=
  acceptsBy_compact.trans acceptsBy_flip

theorem Refines.reverse {N M : Automaton} (h : N.Refines M) : N.reverse.Refines M.reverse := by
  refine ⟨fun ρ w hw ↦ ?_, fun w hw ↦ ?_⟩
  · exact acceptsBy_reverse.mpr (h.keeps ρ _ (acceptsBy_reverse.mp hw))
  · exact acceptsBy_reverse.mpr (h.sound _ (acceptsBy_reverse.mp hw))

/-! ### No epsilon edges -/

/-- Epsilon edges that are made from those of another automaton. -/
theorem EpsilonFree.ofEdges_map (h : N.EpsilonFree) {n : Nat} {reals : List Edge} {ids : List Nat}
    {f : Nat × Nat → Nat × Nat} {initial finals : List Nat} :
    (ofEdges n reals ((N.epsilonsFrom ids).map f) initial finals).EpsilonFree := by
  intro i j hslide
  obtain ⟨_, _, a, _, b, hold, _⟩ := (slides_ofEdges_map f).mp hslide
  exact h a b hold

theorem EpsilonFree.compact (h : N.EpsilonFree) : N.compact.EpsilonFree :=
  h.ofEdges_map

theorem EpsilonFree.reverse (h : N.EpsilonFree) : N.reverse.EpsilonFree :=
  EpsilonFree.compact h.ofEdges_map

end SignalRegex.Automaton
