import SignalRegex.Proofs.EdgeTables
import SignalRegex.Proofs.SignalReading

/-!
Chains of edges, and what an automaton accepts under a reading of its labels.

A label can be read as the set it is, or as the condition that tests for the set, which differs from
it at the code points that no comparator sees. Both readings are monotone, and that is all that is
asked of a reading here. What one automaton does step by step another does too, so it accepts no
less (`Simulation.accepts`); an automaton is refined by one that accepts no less under every reading
and no more under membership (`Refines`).
-/

set_option autoImplicit false

namespace SignalRegex

/-- A text can be read on a way along edges that read one code point and edges that read none. -/
inductive Chain (reads : Nat → Nat → Nat → Prop) (slides : Nat → Nat → Prop) :
    Nat → List Nat → Nat → Prop where
  | refl (i : Nat) : Chain reads slides i [] i
  | slide {i t j : Nat} {w : List Nat} :
      slides i t → Chain reads slides t w j → Chain reads slides i w j
  | read {i cp t j : Nat} {w : List Nat} :
      reads i cp t → Chain reads slides t w j → Chain reads slides i (cp :: w) j

namespace Chain

variable {reads reads' : Nat → Nat → Nat → Prop} {slides slides' : Nat → Nat → Prop}
  {i j k : Nat} {u v w : List Nat}

theorem trans (hu : Chain reads slides i u j) (hv : Chain reads slides j v k) :
    Chain reads slides i (u ++ v) k := by
  induction hu with
  | refl => exact hv
  | slide ht _ ih => exact .slide ht (ih hv)
  | read ht _ ih => exact .read ht (ih hv)

/-- A relation that both kinds of edges carry over to the other side is carried along chains. -/
theorem simulate {sim : Nat → Nat → Prop}
    (hreads : ∀ i k, sim i k → ∀ cp j, reads i cp j → ∃ l, reads' k cp l ∧ sim j l)
    (hslides : ∀ i k, sim i k → ∀ j, slides i j → ∃ l, slides' k l ∧ sim j l)
    (h : Chain reads slides i w j) (hik : sim i k) : ∃ l, Chain reads' slides' k w l ∧ sim j l := by
  induction h generalizing k with
  | refl => exact ⟨k, .refl k, hik⟩
  | slide ht _ ih =>
    obtain ⟨m, hm, hsim⟩ := hslides _ _ hik _ ht
    obtain ⟨l, hl, hend⟩ := ih hsim
    exact ⟨l, .slide hm hl, hend⟩
  | read ht _ ih =>
    obtain ⟨m, hm, hsim⟩ := hreads _ _ hik _ _ ht
    obtain ⟨l, hl, hend⟩ := ih hsim
    exact ⟨l, .read hm hl, hend⟩

/-- A property that passes along edges holds all along a chain, so every edge of the chain leaves a
state that has it. -/
theorem within {P : Nat → Prop} (hreads : ∀ i, P i → ∀ cp j, reads i cp j → P j)
    (hslides : ∀ i, P i → ∀ j, slides i j → P j) (h : Chain reads slides i w j) (hi : P i) :
    Chain (fun a cp b ↦ P a ∧ reads a cp b) (fun a b ↦ P a ∧ slides a b) i w j := by
  induction h with
  | refl => exact .refl _
  | slide ht _ ih => exact .slide ⟨hi, ht⟩ (ih (hslides _ hi _ ht))
  | read ht _ ih => exact .read ⟨hi, ht⟩ (ih (hreads _ hi _ _ ht))

theorem imp (hreads : ∀ i, ∀ cp ∈ w, ∀ j, reads i cp j → reads' i cp j)
    (hslides : ∀ i j, slides i j → slides' i j) (h : Chain reads slides i w j) :
    Chain reads' slides' i w j := by
  induction h with
  | refl => exact .refl _
  | slide ht _ ih => exact .slide (hslides _ _ ht) (ih hreads)
  | read ht _ ih =>
    refine .read (hreads _ _ List.mem_cons_self _ ht) (ih fun i cp hcp ↦ ?_)
    exact hreads i cp (List.mem_cons_of_mem _ hcp)

/-- A chain walked from its end to its start. -/
theorem backwards (h : Chain reads slides i w j) :
    Chain (fun a cp b ↦ reads b cp a) (fun a b ↦ slides b a) j w.reverse i := by
  induction h with
  | refl => exact .refl _
  | slide ht _ ih =>
    have hlast := ih.trans (.slide ht (.refl _))
    rwa [List.append_nil] at hlast
  | @read i cp t j w ht _ ih =>
    rw [List.reverse_cons]
    exact ih.trans (.read ht (.refl _))

/-- Whatever the edges of a chain keep holds at its end. -/
theorem invariant {P : Nat → Prop} (hreads : ∀ i, P i → ∀ cp j, reads i cp j → P j)
    (hslides : ∀ i, P i → ∀ j, slides i j → P j) (h : Chain reads slides i w j) (hi : P i) :
    P j := by
  induction h with
  | refl => exact hi
  | slide ht _ ih => exact ih (hslides _ hi _ ht)
  | read ht _ ih => exact ih (hreads _ hi _ _ ht)

/-- Where nothing slides, a chain that reads nothing goes nowhere. -/
theorem nil_iff (hslides : ∀ i j, ¬ slides i j) : Chain reads slides i [] j ↔ i = j := by
  constructor
  · intro h
    cases h with
    | refl => rfl
    | slide ht _ => exact absurd ht (hslides _ _)
  · intro h
    exact h ▸ .refl i

theorem cons_iff (hslides : ∀ i j, ¬ slides i j) {cp : Nat} :
    Chain reads slides i (cp :: w) j ↔ ∃ t, reads i cp t ∧ Chain reads slides t w j := by
  constructor
  · intro h
    cases h with
    | slide ht _ => exact absurd ht (hslides _ _)
    | read ht hrest => exact ⟨_, ht, hrest⟩
  · intro ⟨t, ht, hrest⟩
    exact .read ht hrest

end Chain

/-- A way to read labels, under which a larger set reads no less. -/
structure Reading where
  Holds : CharSet → Nat → Prop
  mono : ∀ {s t : CharSet} {cp : Nat}, (∀ c ∈ s, c ∈ t) → Holds s cp → Holds t cp

namespace Reading

/-- A label reads its members. -/
def member : Reading where
  Holds s cp := cp ∈ s
  mono h hs := h _ hs

/-- A label reads what its condition lets through. -/
def tested : Reading where
  Holds := CharSet.Tested
  mono := CharSet.Tested.mono

end Reading

namespace Automaton

/-- The edge from `i` to `j` reads the code point. -/
def ReadsBy (N : Automaton) (ρ : Reading) (i cp j : Nat) : Prop :=
  ∃ label, (j, label) ∈ (N.state i).real.toList ∧ ρ.Holds label cp

/-- A text leads from an initial state to a final one. -/
def AcceptsBy (N : Automaton) (ρ : Reading) (w : List Nat) : Prop :=
  ∃ i ∈ N.initial, ∃ f ∈ N.finals, Chain (N.ReadsBy ρ) N.Slides i w f

/-- The automaton has no epsilon edges. -/
def EpsilonFree (N : Automaton) : Prop :=
  ∀ i j, ¬ N.Slides i j

theorem path_iff_chain {N : Automaton} {i j : Nat} {w : List Nat} :
    N.Path i w j ↔ Chain N.Reads N.Slides i w j := by
  constructor
  · intro h
    induction h with
    | refl i => exact .refl i
    | epsilon ht _ ih => exact .slide ht ih
    | real ht hcp _ ih => exact .read ⟨_, ht, hcp⟩ ih
  · intro h
    induction h with
    | refl i => exact .refl i
    | slide ht _ ih => exact .epsilon ht ih
    | read ht _ ih =>
      obtain ⟨label, hlabel, hcp⟩ := ht
      exact .real hlabel hcp ih

/-- What an automaton accepts is what it accepts with its labels read as sets. -/
theorem accepts_iff_acceptsBy_member {N : Automaton} {w : List Nat} :
    N.Accepts w ↔ N.AcceptsBy .member w := by
  unfold Accepts AcceptsBy
  simp only [path_iff_chain]
  exact Iff.rfl

theorem ReadsBy.exists_reads {N : Automaton} {ρ : Reading} {i cp j : Nat}
    (h : N.ReadsBy ρ i cp j) : ∃ c, N.Reads i c j := by
  obtain ⟨label, hlabel, _⟩ := h
  obtain ⟨c, hc⟩ := CharSet.exists_mem_of_ranges_ne_nil ((N.state i).real.labels _ hlabel).2
  exact ⟨c, label, hlabel, hc⟩

theorem ReadsBy.mem_targets {N : Automaton} {ρ : Reading} {i cp j : Nat}
    (h : N.ReadsBy ρ i cp j) : j ∈ N.targets i := by
  obtain ⟨c, hc⟩ := h.exists_reads
  exact hc.mem_targets

/-- An edge whose code points another edge has is read wherever the other one is. This needs that
labels are not empty and that the other edge has one label. -/
theorem ReadsBy.of_reads {N M : Automaton} {ρ : Reading} {i j i' j' cp : Nat}
    (h : ∀ c, N.Reads i c j → M.Reads i' c j') (hread : N.ReadsBy ρ i cp j) :
    M.ReadsBy ρ i' cp j' := by
  obtain ⟨c, hc⟩ := hread.exists_reads
  -- the label found at `c` is the one label of the other edge, so it is found at every code point
  obtain ⟨wider, hwider, _⟩ := h c hc
  obtain ⟨label, hlabel, hcp⟩ := hread
  refine ⟨wider, hwider, ρ.mono (fun d hd ↦ ?_) hcp⟩
  obtain ⟨other, hother, hmem⟩ := h d ⟨label, hlabel, hd⟩
  exact EdgeMap.label_unique hother hwider ▸ hmem

theorem readsBy_tested_iff {N : Automaton} {i cp j : Nat} (hcp : cp < testableLimit) :
    N.ReadsBy .tested i cp j ↔ N.ReadsBy .member i cp j := by
  refine exists_congr fun label ↦ and_congr_right fun _ ↦ ?_
  exact CharSet.tested_iff_mem hcp

/-- On texts below the limit of the comparators conditions are membership. -/
theorem acceptsBy_tested_iff {N : Automaton} {w : List Nat} (hw : ∀ cp ∈ w, cp < testableLimit) :
    N.AcceptsBy .tested w ↔ N.AcceptsBy .member w := by
  constructor
  · intro ⟨i, hi, f, hf, hchain⟩
    exact ⟨i, hi, f, hf, hchain.imp (fun _ cp hcp _ ↦ (readsBy_tested_iff (hw cp hcp)).mp)
      fun _ _ h ↦ h⟩
  · intro ⟨i, hi, f, hf, hchain⟩
    exact ⟨i, hi, f, hf, hchain.imp (fun _ cp hcp _ ↦ (readsBy_tested_iff (hw cp hcp)).mpr)
      fun _ _ h ↦ h⟩

/-- Whatever one automaton does from a state, another does from the states related to it. -/
structure Simulation (N M : Automaton) (ρ : Reading) (sim : Nat → Nat → Prop) : Prop where
  initial : ∀ i ∈ N.initial, ∃ k ∈ M.initial, sim i k
  reads : ∀ i k, sim i k → ∀ cp j, N.ReadsBy ρ i cp j → ∃ l, M.ReadsBy ρ k cp l ∧ sim j l
  slides : ∀ i k, sim i k → ∀ j, N.Slides i j → ∃ l, M.Slides k l ∧ sim j l
  finals : ∀ i k, sim i k → i ∈ N.finals → k ∈ M.finals

theorem Simulation.accepts {N M : Automaton} {ρ : Reading} {sim : Nat → Nat → Prop} {w : List Nat}
    (hsim : Simulation N M ρ sim) (h : N.AcceptsBy ρ w) : M.AcceptsBy ρ w := by
  obtain ⟨i, hi, f, hf, hchain⟩ := h
  obtain ⟨k, hk, hik⟩ := hsim.initial i hi
  obtain ⟨l, hl, hfl⟩ := hchain.simulate hsim.reads hsim.slides hik
  exact ⟨k, hk, l, hsim.finals f l hfl hf, hl⟩

/-- The second automaton accepts no less than the first under every reading, and no more under
membership. -/
structure Refines (N M : Automaton) : Prop where
  keeps : ∀ ρ w, N.AcceptsBy ρ w → M.AcceptsBy ρ w
  sound : ∀ w, M.AcceptsBy .member w → N.AcceptsBy .member w

theorem Refines.refl (N : Automaton) : N.Refines N :=
  ⟨fun _ _ h ↦ h, fun _ h ↦ h⟩

theorem Refines.trans {N M K : Automaton} (hNM : N.Refines M) (hMK : M.Refines K) : N.Refines K :=
  ⟨fun ρ w h ↦ hMK.keeps ρ w (hNM.keeps ρ w h), fun w h ↦ hNM.sound w (hMK.sound w h)⟩

theorem Refines.of_iff {N M : Automaton} (h : ∀ ρ w, N.AcceptsBy ρ w ↔ M.AcceptsBy ρ w) :
    N.Refines M :=
  ⟨fun ρ w ↦ (h ρ w).mp, fun w ↦ (h .member w).mpr⟩

theorem Refines.accepts_iff {N M : Automaton} {w : List Nat} (h : N.Refines M) :
    N.AcceptsBy .member w ↔ M.AcceptsBy .member w :=
  ⟨h.keeps .member w, h.sound w⟩

end Automaton

end SignalRegex
