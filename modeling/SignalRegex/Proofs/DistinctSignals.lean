import SignalRegex.Proofs.Installation

/-!
The signals of a matcher, none of them too many.

Of a set and its complement exactly one prevails (`prevails_complement`), and the side that is
tested never does, so no two sets of a table are equal or complementary (`Irredundant.apart`). A set
is put into the table only for an edge that reads it, so every signal is read (`rows_uses`), and
since no label is empty no edge is impossible (`Encodes.ne_never`).
-/

set_option autoImplicit false

namespace SignalRegex

namespace CharSet

/-- Every edge of a block lies in a set or in its complement. -/
theorem edgeCount_complement (s : CharSet) :
    s.complement.edgeCount + s.edgeCount = 2 * blockCount := by
  have hset := SubRange.count_add_blockCount s
  have hcomplement := SubRange.count_add_blockCount s.complement
  rw [complement_complement, SubRange.count_canonical] at hcomplement
  omega

theorem prevails_complement {s : CharSet} : s.complement.Prevails ↔ ¬ s.Prevails := by
  have hedges := edgeCount_complement s
  have hzero : 0 ∈ s.complement ↔ 0 ∉ s := by
    rw [mem_complement, and_iff_right (by decide : 0 < alphabetSize)]
  unfold Prevails
  rw [hzero, not_not]
  by_cases h : 0 ∈ s
  · simp only [h, and_true, not_true_eq_false, and_false, or_false]
    omega
  · simp only [h, and_false, or_false, not_false_eq_true, and_true]
    omega

end CharSet

namespace SignalTable

variable {t : SignalTable} {s side : CharSet}

/-- Every set is there once, as the side that does not prevail. -/
structure Irredundant (t : SignalTable) : Prop where
  nodup : t.sets.Nodup
  tested : ∀ side ∈ t.sets, side.IsCanonical ∧ ¬ side.Prevails

theorem irredundant_empty : empty.Irredundant :=
  ⟨List.nodup_nil, fun _ h ↦ absurd h List.not_mem_nil⟩

theorem tested_of_choose {negated : Bool} (h : choose s = some (side, negated)) :
    side.IsCanonical ∧ ¬ side.Prevails := by
  rcases eq_of_choose_eq_some h with ⟨rfl, _, hminor⟩ | ⟨rfl, _, hmajor⟩
  · exact ⟨CharSet.isCanonical_canonical s, mt CharSet.prevails_canonical.mp hminor⟩
  · refine ⟨CharSet.isCanonical_complement _, ?_⟩
    rw [CharSet.prevails_complement, not_not]
    exact hmajor

/-- A set either finds its signal in the table or brings one along. -/
theorem intern_cases (t : SignalTable) (s : CharSet) : (t.intern s).1 = t ∨
    ∃ side negated, choose s = some (side, negated) ∧ side ∉ t.sets ∧
      t.intern s = (⟨t.sets ++ [side]⟩, .signal t.size negated) := by
  cases hchoose : choose s with
  | none =>
    rw [intern_of_choose_eq_none t hchoose]
    exact Or.inl rfl
  | some choice =>
    obtain ⟨side, negated⟩ := choice
    cases hplace : t.sets.idxOf? side with
    | some id =>
      refine Or.inl ?_
      simp only [intern, hchoose, hplace]
    | none =>
      refine Or.inr ⟨side, negated, rfl, List.idxOf?_eq_none_iff.mp hplace, ?_⟩
      simp only [intern, hchoose, hplace]

theorem Irredundant.intern (h : t.Irredundant) (s : CharSet) : (t.intern s).1.Irredundant := by
  rcases intern_cases t s with hsame | ⟨side, negated, hchoose, hnew, hintern⟩
  · rwa [hsame]
  · rw [hintern]
    refine ⟨?_, ?_⟩
    · exact List.nodup_append.mpr ⟨h.nodup, List.nodup_singleton side, by
        intro a ha b hb heq
        rw [List.mem_singleton.mp hb] at heq
        exact hnew (heq ▸ ha)⟩
    · exact List.forall_mem_append.mpr
        ⟨h.tested, List.forall_mem_singleton.mpr (tested_of_choose hchoose)⟩

theorem exists_of_getElem?_signals {i : Nat} {a : RangeSignal} (h : t.signals[i]? = some a) :
    ∃ side, t.sets[i]? = some side ∧ a.charset = side.canonical := by
  rw [signals, List.getElem?_map, Option.map_eq_some_iff] at h
  obtain ⟨side, hside, rfl⟩ := h
  exact ⟨side, hside, rfl⟩

/-- Two signals of the table answer for different sets, and neither for the complement of the
other. -/
theorem Irredundant.apart (h : t.Irredundant) {i j : Nat} {a b : RangeSignal} (hij : i ≠ j)
    (ha : t.signals[i]? = some a) (hb : t.signals[j]? = some b) :
    (¬ ∀ cp, cp ∈ a.charset ↔ cp ∈ b.charset) ∧
      ¬ ∀ cp < alphabetSize, cp ∈ a.charset ↔ cp ∉ b.charset := by
  obtain ⟨s, hs, hcharset⟩ := exists_of_getElem?_signals ha
  obtain ⟨s', hs', hcharset'⟩ := exists_of_getElem?_signals hb
  obtain ⟨hcanonical, hminor⟩ := h.tested s (List.mem_of_getElem? hs)
  obtain ⟨hcanonical', hminor'⟩ := h.tested s' (List.mem_of_getElem? hs')
  rw [hcharset, hcharset', CharSet.canonical_eq_self hcanonical,
    CharSet.canonical_eq_self hcanonical']
  constructor
  · intro hsame
    obtain rfl := hcanonical.eq_of_mem_iff hcanonical' hsame
    have hi := (List.getElem?_eq_some_iff.mp hs).1
    exact hij ((List.getElem?_inj hi h.nodup).mp (hs.trans hs'.symm))
  · intro hopposite
    have hcomplement : s = s'.complement := by
      refine hcanonical.eq_of_mem_iff (CharSet.isCanonical_complement s') fun cp ↦ ?_
      rw [CharSet.mem_complement]
      constructor
      · intro hcp
        have hlt := CharSet.lt_alphabetSize_of_mem hcp
        exact ⟨hlt, (hopposite cp hlt).mp hcp⟩
      · rintro ⟨hlt, hcp⟩
        exact (hopposite cp hlt).mpr hcp
    rw [hcomplement, CharSet.prevails_complement] at hminor
    exact hminor hminor'

/-- A signal that was not in the table before is the one that the condition reads. -/
theorem intern_uses {id : Nat} (h : id < (t.intern s).1.size) :
    id < t.size ∨ (t.intern s).2.signal? = some id := by
  rcases intern_cases t s with hsame | ⟨side, negated, _, _, hintern⟩
  · exact Or.inl (hsame ▸ h)
  · rw [hintern] at h ⊢
    rw [size, List.length_append, List.length_singleton] at h
    rcases Nat.lt_or_eq_of_le (Nat.le_of_lt_succ h) with hlt | rfl
    · exact Or.inl hlt
    · exact Or.inr rfl

/-- The condition of a set that has code points is possible. -/
theorem Encodes.ne_never {c : Condition} (h : t.Encodes s c) (hs : s.ranges ≠ []) :
    c ≠ .never := by
  obtain ⟨u, rfl, _⟩ := h
  cases hchoose : choose s with
  | none =>
    have hnot : ¬ s.isEmpty = true := fun hempty ↦ hs (List.isEmpty_iff.mp hempty)
    rw [intern_of_choose_eq_none u hchoose, if_neg hnot]
    exact Condition.noConfusion
  | some choice =>
    obtain ⟨id, hcondition, _⟩ := intern_of_choose_eq_some u hchoose
    rw [hcondition]
    exact Condition.noConfusion

end SignalTable

namespace Matcher

variable {t : SignalTable} {offset : Nat} {R : Automaton} {ls : List (Nat × CharSet)}

theorem irredundant_incoming (h : t.Irredundant) (offset : Nat) (ls : List (Nat × CharSet)) :
    (incoming offset t ls).1.Irredundant := by
  induction ls generalizing t with
  | nil => exact h
  | cons l ls ih => exact ih (h.intern l.2)

theorem irredundant_rows (h : t.Irredundant) (offset : Nat) (R : Automaton) (ids : List Nat) :
    (rows offset R t ids).1.Irredundant := by
  induction ids generalizing t with
  | nil => exact h
  | cons i ids ih => exact ih (irredundant_incoming h offset _)

theorem incoming_uses {id : Nat} (h : id < (incoming offset t ls).1.size) :
    id < t.size ∨ ∃ e ∈ (incoming offset t ls).2, e.condition.signal? = some id := by
  induction ls generalizing t with
  | nil => exact Or.inl h
  | cons l ls ih =>
    rcases ih h with hearlier | ⟨e, he, hread⟩
    · rcases SignalTable.intern_uses hearlier with hold | hread
      · exact Or.inl hold
      · exact Or.inr ⟨_, List.mem_cons_self, hread⟩
    · exact Or.inr ⟨e, List.mem_cons_of_mem _ he, hread⟩

/-- A signal that was not in the table before is read by an edge of the new states. -/
theorem rows_uses {ids : List Nat} {id : Nat} (h : id < (rows offset R t ids).1.size) :
    id < t.size ∨ ∃ s ∈ (rows offset R t ids).2, ∃ e ∈ s.incoming,
      e.condition.signal? = some id := by
  induction ids generalizing t with
  | nil => exact Or.inl h
  | cons i ids ih =>
    rcases ih h with hearlier | ⟨s, hs, hread⟩
    · rcases incoming_uses hearlier with hold | hread
      · exact Or.inl hold
      · exact Or.inr ⟨_, List.mem_cons_self, hread⟩
    · exact Or.inr ⟨s, List.mem_cons_of_mem _ hs, hread⟩

end Matcher

end SignalRegex
