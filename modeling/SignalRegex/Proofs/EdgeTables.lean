import Mathlib.Data.List.Nodup
import Mathlib.Tactic.SplitIfs
import SignalRegex.Automaton.Path
import SignalRegex.Proofs.SetMembership

/-!
The edges of an automaton as relations between its states.

`Reads i cp j` says that the edge from `i` to `j` has the code point, and `Slides i j` that an
epsilon edge leads from `i` to `j`. An automaton that is made from lists of edges and marks has the
edges and marks on the lists that name its states, and no others (`reads_ofEdges`, `slides_ofEdges`,
`mem_initial_ofEdges`, `mem_finals_ofEdges`).
-/

set_option autoImplicit false

namespace SignalRegex

namespace EdgeMap

/-- The edge to `t` has the code point. -/
def Reads (m : EdgeMap) (cp t : Nat) : Prop :=
  ∃ label, (t, label) ∈ m.toList ∧ cp ∈ label

theorem exists_mem_place {target t cp : Nat} {label : CharSet} {l : List (Nat × CharSet)} :
    (∃ s, (t, s) ∈ place target label l ∧ cp ∈ s) ↔
      t = target ∧ cp ∈ label ∨ ∃ s, (t, s) ∈ l ∧ cp ∈ s := by
  induction l with
  | nil => simp [place, and_assoc, CharSet.mem_canonical]
  | cons e rest ih =>
    obtain ⟨u, old⟩ := e
    unfold place
    split_ifs with hlt heq
    · simp only [List.mem_cons, Prod.mk.injEq, or_and_right, exists_or, and_assoc, exists_eq_left,
        exists_and_left, CharSet.mem_canonical]
    · subst heq
      simp only [List.mem_cons, Prod.mk.injEq, or_and_right, exists_or, and_assoc, exists_eq_left,
        exists_and_left, CharSet.mem_union]
      grind
    · simp only [List.mem_cons, Prod.mk.injEq, or_and_right, exists_or, and_assoc, exists_eq_left,
        exists_and_left, ih]
      grind

theorem reads_add {m : EdgeMap} {target t cp : Nat} {label : CharSet} :
    (m.add target label).Reads cp t ↔ t = target ∧ cp ∈ label ∨ m.Reads cp t := by
  unfold add
  split_ifs with hnil
  · have hout : cp ∉ label := fun h ↦ CharSet.ranges_ne_nil_of_mem h hnil
    simp only [hout, and_false, false_or]
  · exact exists_mem_place

/-- To one target there is one label. -/
theorem label_unique {m : EdgeMap} {t : Nat} {s s' : CharSet} (h : (t, s) ∈ m.toList)
    (h' : (t, s') ∈ m.toList) : s = s' := by
  have hnodup : (m.toList.map Prod.fst).Nodup :=
    List.pairwise_map.mpr (m.increasing.imp Nat.ne_of_lt)
  exact congrArg Prod.snd (List.inj_on_of_nodup_map hnodup h h' rfl)

/-- Labels are not empty, so a target that reads the same in another map has an edge there, and
they are canonical, so it is the same edge. -/
theorem mem_of_reads_iff {m n : EdgeMap} (h : ∀ cp t, m.Reads cp t ↔ n.Reads cp t)
    {e : Nat × CharSet} (he : e ∈ m.toList) : e ∈ n.toList := by
  obtain ⟨t, label⟩ := e
  obtain ⟨hcanonical, hne⟩ := m.labels _ he
  obtain ⟨cp, hcp⟩ := CharSet.exists_mem_of_ranges_ne_nil hne
  obtain ⟨other, hother, -⟩ := (h cp t).mp ⟨label, he, hcp⟩
  have hsame : ∀ c, c ∈ label ↔ c ∈ other := by
    intro c
    constructor
    · intro hc
      obtain ⟨s, hs, hmem⟩ := (h c t).mp ⟨label, he, hc⟩
      exact label_unique hs hother ▸ hmem
    · intro hc
      obtain ⟨s, hs, hmem⟩ := (h c t).mpr ⟨other, hother, hc⟩
      exact label_unique hs he ▸ hmem
  have heq : label = other := hcanonical.eq_of_mem_iff (n.labels _ hother).1 hsame
  rwa [heq]

/-- Maps that read the same are equal. -/
theorem eq_of_reads_iff {m n : EdgeMap} (h : ∀ cp t, m.Reads cp t ↔ n.Reads cp t) : m = n := by
  have hnodup (m : EdgeMap) : m.toList.Nodup :=
    m.increasing.imp fun hlt heq ↦ Nat.ne_of_lt hlt (congrArg Prod.fst heq)
  have hperm : m.toList.Perm n.toList := (List.perm_ext_iff_of_nodup (hnodup m) (hnodup n)).mpr
    fun _ ↦ ⟨mem_of_reads_iff h, mem_of_reads_iff fun cp t ↦ (h cp t).symm⟩
  have hlist : m.toList = n.toList := hperm.eq_of_pairwise
    (fun _ _ _ _ hlt hgt ↦ absurd hgt (Nat.lt_asymm hlt)) m.increasing n.increasing
  cases m
  cases n
  cases hlist
  rfl

/-- Labels are not empty, so there is an edge to a target where a code point leads there. -/
theorem mem_targets_iff {m : EdgeMap} {t : Nat} : t ∈ m.targets ↔ ∃ cp, m.Reads cp t := by
  constructor
  · intro h
    obtain ⟨e, he, rfl⟩ := List.mem_map.mp h
    obtain ⟨cp, hcp⟩ := CharSet.exists_mem_of_ranges_ne_nil (m.labels e he).2
    exact ⟨cp, e.2, he, hcp⟩
  · rintro ⟨cp, label, hlabel, _⟩
    exact List.mem_map_of_mem hlabel

theorem increasing_targets (m : EdgeMap) : m.targets.Pairwise (· < ·) :=
  List.pairwise_map.mpr m.increasing

end EdgeMap

namespace Automaton

/-- A labelled edge from `i` to `j` has the code point. -/
def Reads (N : Automaton) (i cp j : Nat) : Prop :=
  (N.state i).real.Reads cp j

/-- An epsilon edge leads from `i` to `j`. -/
def Slides (N : Automaton) (i j : Nat) : Prop :=
  j ∈ (N.state i).epsilon

theorem Reads.mem_targets {N : Automaton} {i cp j : Nat} (h : N.Reads i cp j) :
    j ∈ N.targets i := by
  obtain ⟨label, hlabel, _⟩ := h
  exact List.mem_append_left _ (List.mem_map_of_mem hlabel)

theorem Slides.mem_targets {N : Automaton} {i j : Nat} (h : N.Slides i j) : j ∈ N.targets i :=
  List.mem_append_right _ h

theorem state_of_size_le {N : Automaton} {i : Nat} (h : N.size ≤ i) : N.state i = .empty := by
  rw [state, Array.getD_eq_getD_getElem?, Array.getElem?_eq_none h]
  rfl

theorem Reads.lt {N : Automaton} {i cp j : Nat} (h : N.Reads i cp j) : i < N.size ∧ j < N.size := by
  refine ⟨Nat.lt_of_not_le fun hle ↦ ?_, lt_of_mem_targets h.mem_targets⟩
  obtain ⟨label, hlabel, _⟩ := h
  rw [state_of_size_le hle] at hlabel
  exact absurd hlabel List.not_mem_nil

theorem Slides.lt {N : Automaton} {i j : Nat} (h : N.Slides i j) : i < N.size ∧ j < N.size := by
  refine ⟨Nat.lt_of_not_le fun hle ↦ ?_, lt_of_mem_targets h.mem_targets⟩
  rw [Slides, state_of_size_le hle] at h
  exact IdSet.not_mem_empty j h

/-! ### Automata with the same edges -/

theorem state_eq_of_edges_iff {N M : Automaton} {i j : Nat}
    (hreads : ∀ cp k, N.Reads i cp k ↔ M.Reads j cp k)
    (hslides : ∀ k, N.Slides i k ↔ M.Slides j k) : N.state i = M.state j := by
  have hreal : (N.state i).real = (M.state j).real := EdgeMap.eq_of_reads_iff hreads
  have hepsilon : (N.state i).epsilon = (M.state j).epsilon := IdSet.ext_mem hslides
  calc N.state i
    _ = ⟨(N.state i).real, (N.state i).epsilon⟩ := rfl
    _ = ⟨(M.state j).real, (M.state j).epsilon⟩ := by rw [hreal, hepsilon]

/-- An automaton is its number of states with its edges and its marks. -/
theorem eq_of_edges_iff {N M : Automaton} (hsize : N.size = M.size)
    (hreads : ∀ i cp j, N.Reads i cp j ↔ M.Reads i cp j)
    (hslides : ∀ i j, N.Slides i j ↔ M.Slides i j)
    (hinitial : ∀ i, i ∈ N.initial ↔ i ∈ M.initial) (hfinals : ∀ i, i ∈ N.finals ↔ i ∈ M.finals) :
    N = M := by
  have hstates : N.states = M.states := by
    refine Array.ext hsize fun i hi hi' ↦ ?_
    have hstate : N.state i = M.state i := state_eq_of_edges_iff (hreads i) (hslides i)
    simpa [state, Array.getD_eq_getD_getElem?, hi, hi'] using hstate
  have hinitial' : N.initial = M.initial := IdSet.ext_mem hinitial
  have hfinals' : N.finals = M.finals := IdSet.ext_mem hfinals
  cases N
  cases M
  cases hstates
  cases hinitial'
  cases hfinals'
  rfl

/-! ### Adding edges and marks -/

theorem state_modifyState {N : Automaton} {source i : Nat} {f : State → State}
    {hf : ∀ s, ∀ t ∈ (f s).targets, t < N.size ∨ t ∈ s.targets} :
    (N.modifyState source f hf).state i =
      if source = i ∧ i < N.size then f (N.state i) else N.state i :=
  getD_modify ..

theorem reads_addReal {N : Automaton} {source target i cp j : Nat} {label : CharSet} :
    (N.addReal source target label).Reads i cp j ↔
      (source = i ∧ i < N.size) ∧ (target = j ∧ j < N.size) ∧ cp ∈ label ∨ N.Reads i cp j := by
  unfold addReal Reads
  split_ifs with htarget
  · rw [state_modifyState]
    split_ifs with hsource
    · rw [State.addReal, EdgeMap.reads_add]
      grind
    · grind
  · grind

theorem slides_addReal {N : Automaton} {source target i j : Nat} {label : CharSet} :
    (N.addReal source target label).Slides i j ↔ N.Slides i j := by
  unfold addReal Slides
  split_ifs with htarget
  · rw [state_modifyState]
    split_ifs with hsource
    · rfl
    · rfl
  · rfl

theorem slides_addEpsilon {N : Automaton} {source target i j : Nat} :
    (N.addEpsilon source target).Slides i j ↔
      (source = i ∧ i < N.size) ∧ (target = j ∧ j < N.size) ∨ N.Slides i j := by
  unfold addEpsilon Slides
  split_ifs with htarget
  · rw [state_modifyState]
    split_ifs with hsource
    · rw [State.addEpsilon, IdSet.mem_insert]
      grind
    · grind
  · grind

theorem reads_addEpsilon {N : Automaton} {source target i cp j : Nat} :
    (N.addEpsilon source target).Reads i cp j ↔ N.Reads i cp j := by
  unfold addEpsilon Reads
  split_ifs with htarget
  · rw [state_modifyState]
    split_ifs with hsource
    · rfl
    · rfl
  · rfl

/-- What no step changes, a fold over the steps does not change. -/
theorem foldl_keeps {α β : Type} (view : Automaton → β) {add : Automaton → α → Automaton}
    (h : ∀ N a, view (add N a) = view N) (N : Automaton) (l : List α) :
    view (l.foldl add N) = view N := by
  induction l generalizing N with
  | nil => rfl
  | cons a l ih => exact (ih (add N a)).trans (h N a)

theorem state_markInitial (N : Automaton) (i : Nat) : (N.markInitial i).state = N.state := by
  unfold markInitial
  split_ifs with hi
  · rfl
  · rfl

theorem state_markFinal (N : Automaton) (i : Nat) : (N.markFinal i).state = N.state := by
  unfold markFinal
  split_ifs with hi
  · rfl
  · rfl

theorem finals_addReal (N : Automaton) (e : Edge) :
    (N.addReal e.source e.target e.label).finals = N.finals := by
  unfold addReal
  split_ifs with htarget
  · rfl
  · rfl

theorem finals_addEpsilon (N : Automaton) (e : Nat × Nat) :
    (N.addEpsilon e.1 e.2).finals = N.finals := by
  unfold addEpsilon
  split_ifs with htarget
  · rfl
  · rfl

theorem finals_markInitial (N : Automaton) (i : Nat) : (N.markInitial i).finals = N.finals := by
  unfold markInitial
  split_ifs with hi
  · rfl
  · rfl

theorem reads_addReals {N : Automaton} {edges : List Edge} {i cp j : Nat} :
    (N.addReals edges).Reads i cp j ↔
      i < N.size ∧ j < N.size ∧ (∃ e ∈ edges, e.source = i ∧ e.target = j ∧ cp ∈ e.label) ∨
        N.Reads i cp j := by
  induction edges generalizing N with
  | nil => simp [addReals]
  | cons e edges ih =>
    refine ih.trans ?_
    rw [reads_addReal, size_addReal, List.exists_mem_cons_iff]
    grind

theorem slides_addEpsilons {N : Automaton} {pairs : List (Nat × Nat)} {i j : Nat} :
    (N.addEpsilons pairs).Slides i j ↔ i < N.size ∧ j < N.size ∧ (i, j) ∈ pairs ∨ N.Slides i j := by
  induction pairs generalizing N with
  | nil => simp [addEpsilons]
  | cons e pairs ih =>
    refine ih.trans ?_
    rw [slides_addEpsilon, size_addEpsilon, List.mem_cons, Prod.ext_iff]
    grind

theorem mem_finals_markFinals {N : Automaton} {ids : List Nat} {k : Nat} :
    k ∈ (N.markFinals ids).finals ↔ k ∈ N.finals ∨ (k ∈ ids ∧ k < N.size) := by
  induction ids generalizing N with
  | nil => simp [markFinals]
  | cons i ids ih =>
    refine ih.trans ?_
    rw [size_markFinal, List.mem_cons, markFinal]
    split_ifs with hi
    · rw [IdSet.mem_insert]
      grind
    · grind

/-! ### Automata from lists of edges -/

section OfEdges

variable {n : Nat} {reals : List Edge} {epsilons : List (Nat × Nat)} {initial finals : List Nat}
  {i cp j k : Nat}

theorem state_ofEdges : (ofEdges n reals epsilons initial finals).state =
    (((blank n).addReals reals).addEpsilons epsilons).state :=
  (foldl_keeps state state_markFinal _ finals).trans (foldl_keeps state state_markInitial _ initial)

theorem state_blank : (blank n).state i = .empty := by
  rw [state, blank, Array.getD_eq_getD_getElem?, Array.getElem?_replicate]
  split_ifs with hi
  · rfl
  · rfl

theorem reads_ofEdges : (ofEdges n reals epsilons initial finals).Reads i cp j ↔
    i < n ∧ j < n ∧ ∃ e ∈ reals, e.source = i ∧ e.target = j ∧ cp ∈ e.label := by
  have hepsilons : (((blank n).addReals reals).addEpsilons epsilons).Reads i cp j =
      ((blank n).addReals reals).Reads i cp j :=
    foldl_keeps (·.Reads i cp j) (fun _ _ ↦ propext reads_addEpsilon) _ epsilons
  have hblank : ¬ (blank n).Reads i cp j := by
    rw [Reads, state_blank]
    exact fun ⟨_, hlabel, _⟩ ↦ List.not_mem_nil hlabel
  rw [Reads, state_ofEdges, ← Reads, hepsilons, reads_addReals, size_blank]
  exact or_iff_left hblank

theorem slides_ofEdges : (ofEdges n reals epsilons initial finals).Slides i j ↔
    i < n ∧ j < n ∧ (i, j) ∈ epsilons := by
  have hreals : ((blank n).addReals reals).Slides i j = (blank n).Slides i j :=
    foldl_keeps (·.Slides i j) (fun _ _ ↦ propext slides_addReal) _ reals
  have hblank : ¬ (blank n).Slides i j := by
    rw [Slides, state_blank]
    exact IdSet.not_mem_empty j
  rw [Slides, state_ofEdges, ← Slides, slides_addEpsilons, hreals, size_addReals, size_blank]
  exact or_iff_left hblank

theorem mem_finals_ofEdges :
    k ∈ (ofEdges n reals epsilons initial finals).finals ↔ k ∈ finals ∧ k < n := by
  have hfinals : ((((blank n).addReals reals).addEpsilons epsilons).markInitials initial).finals =
      .empty :=
    (foldl_keeps Automaton.finals finals_markInitial _ initial).trans
      ((foldl_keeps Automaton.finals finals_addEpsilon _ epsilons).trans
        (foldl_keeps Automaton.finals finals_addReal _ reals))
  rw [ofEdges, mem_finals_markFinals, hfinals, size_markInitials, size_addEpsilons, size_addReals,
    size_blank]
  exact or_iff_right (IdSet.not_mem_empty k)

end OfEdges

/-! ### The edges out of listed states -/

theorem mem_realsFrom {N : Automaton} {ids : List Nat} {e : Edge} :
    e ∈ N.realsFrom ids ↔
      e.source ∈ ids ∧ (e.target, e.label) ∈ (N.state e.source).real.toList := by
  constructor
  · intro he
    obtain ⟨i, hi, he⟩ := List.mem_flatMap.mp he
    obtain ⟨f, hf, rfl⟩ := List.mem_map.mp he
    exact ⟨hi, hf⟩
  · intro ⟨hsource, hlabel⟩
    exact List.mem_flatMap.mpr ⟨e.source, hsource, List.mem_map.mpr ⟨_, hlabel, rfl⟩⟩

theorem mem_epsilonsFrom {N : Automaton} {ids : List Nat} {e : Nat × Nat} :
    e ∈ N.epsilonsFrom ids ↔ e.1 ∈ ids ∧ N.Slides e.1 e.2 := by
  constructor
  · intro he
    obtain ⟨i, hi, he⟩ := List.mem_flatMap.mp he
    obtain ⟨t, ht, rfl⟩ := List.mem_map.mp he
    exact ⟨hi, ht⟩
  · intro ⟨hi, ht⟩
    exact List.mem_flatMap.mpr ⟨e.1, hi, List.mem_map.mpr ⟨e.2, ht, rfl⟩⟩

section Renamed

variable {N : Automaton} {n : Nat} {reals : List Edge} {epsilons : List (Nat × Nat)}
  {ids initial finals : List Nat} {i cp j : Nat}

/-- Edges that were made from the edges out of listed states and have kept their labels. -/
theorem reads_ofEdges_map (source target : Nat → Nat → Nat) :
    (ofEdges n ((N.realsFrom ids).map fun e ↦
      ⟨source e.source e.target, e.label, target e.source e.target⟩) epsilons initial finals).Reads
        i cp j ↔
      i < n ∧ j < n ∧ ∃ a ∈ ids, ∃ b, N.Reads a cp b ∧ source a b = i ∧ target a b = j := by
  rw [reads_ofEdges]
  refine and_congr_right fun _ ↦ and_congr_right fun _ ↦ ⟨?_, ?_⟩
  · rintro ⟨e, he, hsource, htarget, hcp⟩
    obtain ⟨f, hf, rfl⟩ := List.mem_map.mp he
    obtain ⟨hs, hlabel⟩ := mem_realsFrom.mp hf
    exact ⟨f.source, hs, f.target, ⟨f.label, hlabel, hcp⟩, hsource, htarget⟩
  · rintro ⟨a, ha, b, ⟨label, hlabel, hcp⟩, hsource, htarget⟩
    have hedge := (mem_realsFrom (e := ⟨a, label, b⟩)).mpr ⟨ha, hlabel⟩
    exact ⟨_, List.mem_map_of_mem hedge, hsource, htarget, hcp⟩

theorem slides_ofEdges_map (f : Nat × Nat → Nat × Nat) :
    (ofEdges n reals ((N.epsilonsFrom ids).map f) initial finals).Slides i j ↔
      i < n ∧ j < n ∧ ∃ a ∈ ids, ∃ b, N.Slides a b ∧ f (a, b) = (i, j) := by
  rw [slides_ofEdges]
  refine and_congr_right fun _ ↦ and_congr_right fun _ ↦ ⟨?_, ?_⟩
  · intro he
    obtain ⟨e, he, heq⟩ := List.mem_map.mp he
    obtain ⟨hs, hslide⟩ := mem_epsilonsFrom.mp he
    exact ⟨e.1, hs, e.2, hslide, heq⟩
  · rintro ⟨a, ha, b, hslide, heq⟩
    have hedge := (mem_epsilonsFrom (e := (a, b))).mpr ⟨ha, hslide⟩
    exact List.mem_map.mpr ⟨_, hedge, heq⟩

end Renamed

end Automaton

end SignalRegex
