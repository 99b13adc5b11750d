import SignalRegex.Proofs.DistinctSignals

/-!
Tables of signals as they are filled.

Sets are put into a table one after the other, and each gets a condition. Read through the signals
of the table, then or at any time later, the condition is membership in the set as far as the
comparators see, and its own negation flag beyond (`Encodes.eval_values`, `eval_values_of_le`).
Every set is tested on one side, the set itself or its complement, and the side and the flag depend
on the members alone (`Tests`), so two sets share a signal exactly when they have the same side
(`Irredundant.id_eq_iff`), which is when their members are the same or complementary
(`Tests.eq_iff`).
-/

set_option autoImplicit false

namespace SignalRegex

namespace CharSet

variable {s t : CharSet}

/-- The sets have the same members. -/
def Same (s t : CharSet) : Prop :=
  ∀ cp, cp ∈ s ↔ cp ∈ t

theorem same_of_lt (h : ∀ cp < alphabetSize, cp ∈ s ↔ cp ∈ t) : s.Same t :=
  mem_iff_of_lt h

theorem Same.prevails_iff (h : s.Same t) : s.Prevails ↔ t.Prevails :=
  ⟨.mono fun cp ↦ (h cp).mp, .mono fun cp ↦ (h cp).mpr⟩

end CharSet

namespace SignalTable

variable {t : SignalTable} {s s' side side' : CharSet} {c : Condition} {negated negated' : Bool}
  {cp : Nat}

/-! ### Filling a table -/

/-- The table after the sets were put into it one after the other, and the conditions they got. -/
def internAll (t : SignalTable) : List CharSet → SignalTable × List Condition
  | [] => (t, [])
  | s :: rest =>
    (((t.intern s).1.internAll rest).1, (t.intern s).2 :: ((t.intern s).1.internAll rest).2)

theorem prefix_internAll (t : SignalTable) (sets : List CharSet) :
    t.sets <+: (t.internAll sets).1.sets := by
  induction sets generalizing t with
  | nil => exact List.prefix_rfl
  | cons s rest ih => exact (prefix_intern t s).trans (ih _)

theorem length_internAll (t : SignalTable) (sets : List CharSet) :
    (t.internAll sets).2.length = sets.length := by
  induction sets generalizing t with
  | nil => rfl
  | cons s rest ih => exact congrArg (· + 1) (ih _)

theorem Irredundant.internAll (h : t.Irredundant) (sets : List CharSet) :
    (t.internAll sets).1.Irredundant := by
  induction sets generalizing t with
  | nil => exact h
  | cons s rest ih => exact ih (h.intern s)

/-- The table that has taken a set, and every later one, encodes the set by the condition it
got. -/
theorem encodes_internAll {sets : List CharSet} {i k : Nat} (hs : sets[i]? = some s)
    (hc : (t.internAll sets).2[i]? = some c) (hk : i < k) :
    (t.internAll (sets.take k)).1.Encodes s c := by
  obtain ⟨k, rfl⟩ := Nat.exists_eq_succ_of_ne_zero (Nat.ne_of_gt (Nat.zero_lt_of_lt hk))
  induction sets generalizing t i k with
  | nil => exact absurd hs nofun
  | cons s' rest ih =>
    cases i with
    | zero =>
      obtain rfl := Option.some.inj hs
      obtain rfl := Option.some.inj hc
      exact ⟨t, rfl, prefix_internAll _ _⟩
    | succ i =>
      have hlt : i < k := Nat.lt_of_succ_lt_succ hk
      obtain ⟨k, rfl⟩ := Nat.exists_eq_succ_of_ne_zero (Nat.ne_of_gt (Nat.zero_lt_of_lt hlt))
      exact ih hs hc k hlt

/-! ### Reading a condition -/

/-- What the signals of the table answer at a code point. -/
def values (t : SignalTable) (cp : Nat) : Array Bool :=
  (t.signals.map (·.contains cp)).toArray

theorem getD_values (t : SignalTable) (cp id : Nat) :
    (t.values cp).getD id false = true ↔ ∃ s ∈ t.signals[id]?, s.contains cp = true := by
  rw [values, Array.getD_eq_getD_getElem?, List.getElem?_toArray, List.getElem?_map]
  cases t.signals[id]? with
  | none => simp
  | some s => simp

theorem Encodes.eval_values (h : t.Encodes s c) (hcp : cp < testableLimit) :
    c.eval (t.values cp) = s.contains cp := by
  rw [Bool.eq_iff_iff, Condition.eval_eq_true_iff (t.getD_values cp), h.holdsAt_iff,
    CharSet.tested_iff_mem hcp, CharSet.contains_iff_mem]

/-- Where no comparator answers, no signal does. -/
theorem getD_values_of_le (t : SignalTable) (hcp : testableLimit ≤ cp) (id : Nat) :
    (t.values cp).getD id false = false := by
  rw [Bool.eq_false_iff, ne_eq, getD_values]
  rintro ⟨signal, hsignal, hcontains⟩
  rw [signals, List.getElem?_map] at hsignal
  obtain ⟨side, _, rfl⟩ := Option.map_eq_some_iff.mp hsignal
  have hlt := (RangeSignal.contains_ofCharSet.mp hcontains).1
  omega

theorem eval_values_of_le (t : SignalTable) (c : Condition) (hcp : testableLimit ≤ cp) :
    c.eval (t.values cp) = true ↔ c = .always ∨ ∃ id, c = .signal id true := by
  cases c with
  | never => simp [Condition.eval]
  | always => simp [Condition.eval]
  | signal id negated => simp [Condition.eval, t.getD_values_of_le hcp]

/-! ### Sets that need no signal -/

theorem intern_of_forall_not_mem (t : SignalTable) (h : ∀ cp, cp ∉ s) :
    t.intern s = (t, .never) := by
  have hnil : s.ranges = [] := by
    by_contra hne
    obtain ⟨cp, hcp⟩ := CharSet.exists_mem_of_ranges_ne_nil hne
    exact h cp hcp
  have hcount : SubRange.count s.canonical = 0 := by
    rw [SubRange.count_canonical, SubRange.count_eq_zero_iff]
    exact hnil
  have hchoose : choose s = none := if_pos (Or.inl hcount)
  rw [intern_of_choose_eq_none t hchoose, if_pos]
  exact List.isEmpty_iff.mpr hnil

theorem intern_of_forall_mem (t : SignalTable) (h : ∀ cp < alphabetSize, cp ∈ s) :
    t.intern s = (t, .always) := by
  have hnil : s.canonical.complement.ranges = [] := by
    by_contra hne
    obtain ⟨cp, hcp⟩ := CharSet.exists_mem_of_ranges_ne_nil hne
    obtain ⟨hlt, hout⟩ := CharSet.mem_complement.mp hcp
    exact hout (CharSet.mem_canonical.mpr (h cp hlt))
  have hcount : SubRange.count s.canonical.complement = 0 := SubRange.count_eq_zero_iff.mpr hnil
  have hchoose : choose s = none := if_pos (Or.inr hcount)
  have hne : s.ranges ≠ [] := CharSet.ranges_ne_nil_of_mem (h 0 (by decide))
  rw [intern_of_choose_eq_none t hchoose, if_neg]
  exact fun hempty ↦ hne (List.isEmpty_iff.mp hempty)

/-! ### Sets that share a signal -/

/-- The set is tested on the given side, and is the complement of that side where the flag is up. -/
structure Tests (s side : CharSet) (negated : Bool) : Prop where
  chosen : choose s = some (side, negated)
  canonical : side.IsCanonical
  mem_iff : ∀ cp < alphabetSize, cp ∈ side ↔ (cp ∈ s ↔ negated = false)
  flag : negated = true ↔ s.Prevails

/-- A set that has members and lacks some is tested on one of its sides. -/
theorem exists_tests (hsome : ∃ cp, cp ∈ s) (hmissing : ∃ cp < alphabetSize, cp ∉ s) :
    ∃ side negated, Tests s side negated := by
  obtain ⟨cp, hcp⟩ := hsome
  obtain ⟨cp', hlt, hcp'⟩ := hmissing
  rcases choose_cases s with ⟨_, hempty | hfull⟩ | ⟨hchoose, hminor⟩ | ⟨hchoose, hmajor⟩
  · exact absurd hempty (CharSet.ranges_ne_nil_of_mem hcp)
  · exact absurd (CharSet.mem_of_complement_canonical_eq_nil hfull hlt) hcp'
  · refine ⟨_, _, hchoose, CharSet.isCanonical_canonical s, fun cp _ ↦ ?_, ?_⟩
    · simp only [CharSet.mem_canonical, iff_true]
    · simp only [hminor, Bool.false_eq_true]
  · refine ⟨_, _, hchoose, CharSet.isCanonical_complement _, fun cp hcp ↦ ?_, ?_⟩
    · simp only [CharSet.mem_complement, CharSet.mem_canonical, hcp, true_and, Bool.true_eq_false,
        iff_false]
    · simp only [hmajor]

/-- Sets with the same members are tested with the same flag. -/
theorem Tests.flag_eq (h : Tests s side negated) (h' : Tests s' side' negated')
    (hsame : s.Same s') : negated = negated' := by
  rw [Bool.eq_iff_iff, h.flag, h'.flag]
  exact hsame.prevails_iff

/-- A set and its complement are tested with opposite flags. -/
theorem Tests.flag_eq_not (h : Tests s side negated) (h' : Tests s' side' negated')
    (hopposite : s.Same s'.complement) : negated = !negated' := by
  rw [Bool.eq_iff_iff, h.flag, hopposite.prevails_iff, CharSet.prevails_complement, ← h'.flag]
  simp

/-- Two sets are tested on the same side when they have the same members, or one has those that the
other lacks. -/
theorem Tests.eq_iff (h : Tests s side negated) (h' : Tests s' side' negated') :
    side = side' ↔ s.Same s' ∨ s.Same s'.complement := by
  constructor
  · rintro rfl
    have hmem : ∀ cp < alphabetSize,
        (cp ∈ s ↔ negated = false) ↔ (cp ∈ s' ↔ negated' = false) :=
      fun cp hcp ↦ (h.mem_iff cp hcp).symm.trans (h'.mem_iff cp hcp)
    by_cases hflag : negated = negated'
    · refine Or.inl (CharSet.same_of_lt fun cp hcp ↦ ?_)
      have hcp' := hmem cp hcp
      rw [hflag] at hcp'
      tauto
    · refine Or.inr (CharSet.same_of_lt fun cp hcp ↦ ?_)
      have hcp' := hmem cp hcp
      rw [CharSet.mem_complement, and_iff_right hcp]
      rw [Bool.eq_not.mpr hflag, Bool.not_eq_false', ← Bool.not_eq_false] at hcp'
      tauto
  · intro hshare
    refine h.canonical.eq_of_mem_iff h'.canonical (CharSet.same_of_lt fun cp hcp ↦ ?_)
    rw [h.mem_iff cp hcp, h'.mem_iff cp hcp]
    rcases hshare with hsame | hopposite
    · rw [h.flag_eq h' hsame, hsame cp]
    · rw [h.flag_eq_not h' hopposite, hopposite cp, CharSet.mem_complement, and_iff_right hcp,
        Bool.not_eq_false', ← Bool.not_eq_false]
      exact not_iff_not

/-- The condition of a set that is tested reads the signal of its side. -/
theorem Encodes.exists_signal (h : t.Encodes s c) (htests : Tests s side negated) :
    ∃ id, c = .signal id negated ∧ t.sets[id]? = some side := by
  obtain ⟨u, rfl, hu⟩ := h
  obtain ⟨id, hcondition, hplace⟩ := intern_of_choose_eq_some u htests.chosen
  exact ⟨id, hcondition, getElem?_of_prefix hu hplace⟩

/-- In a table without repetitions two sides have one signal where they are one. -/
theorem Irredundant.id_eq_iff (h : t.Irredundant) {a b : Nat} (ha : t.sets[a]? = some side)
    (hb : t.sets[b]? = some side') : a = b ↔ side = side' := by
  constructor
  · rintro rfl
    exact Option.some.inj (ha.symm.trans hb)
  · rintro rfl
    exact (List.getElem?_inj (List.getElem?_eq_some_iff.mp ha).1 h.nodup).mp (ha.trans hb.symm)

/-! ### All of it -/

/-- A set of the sequence and the condition it got when the sequence was put into an empty table. -/
def Interned (sets : List CharSet) (i : Nat) (s : CharSet) (c : Condition) : Prop :=
  sets[i]? = some s ∧ (empty.internAll sets).2[i]? = some c

/-- However an empty table is filled, every set gets a condition, which is membership in the set as
far as the comparators see and its own flag beyond, when it is given out and at any time later; two
sets with members inside and outside share a signal exactly when they have the same members or
complementary ones, with the same flag or opposite ones; and the empty and the full set need no
signal. -/
theorem intern_faithful_and_shared (sets : List CharSet) :
    (empty.internAll sets).2.length = sets.length ∧
    (∀ i s c, Interned sets i s c → ∀ k, i < k →
      (∀ id, c.signal? = some id → id < (empty.internAll (sets.take k)).1.signals.length) ∧
      ∀ cp,
        (cp < testableLimit →
          c.eval ((empty.internAll (sets.take k)).1.values cp) = s.contains cp) ∧
        (testableLimit ≤ cp →
          (c.eval ((empty.internAll (sets.take k)).1.values cp) = true ↔
            c = .always ∨ ∃ id, c = .signal id true))) ∧
    (∀ i j s s' c c', Interned sets i s c → Interned sets j s' c' →
      (∃ cp, cp ∈ s) → (∃ cp < alphabetSize, cp ∉ s) →
      (∃ cp, cp ∈ s') → (∃ cp < alphabetSize, cp ∉ s') →
      ∃ a x b y, c = .signal a x ∧ c' = .signal b y ∧
        (a = b ↔ s.Same s' ∨ s.Same s'.complement) ∧
        (s.Same s' → x = y) ∧ (s.Same s'.complement → x = !y)) ∧
    ∀ (t : SignalTable) (s : CharSet),
      ((∀ cp, cp ∉ s) → t.intern s = (t, .never)) ∧
      ((∀ cp < alphabetSize, cp ∈ s) → t.intern s = (t, .always)) := by
  refine ⟨empty.length_internAll sets, ?_, ?_,
    fun t s ↦ ⟨t.intern_of_forall_not_mem, t.intern_of_forall_mem⟩⟩
  · rintro i s c ⟨hs, hc⟩ k hk
    have hencodes := encodes_internAll hs hc hk
    exact ⟨fun id ↦ hencodes.signal_lt, fun cp ↦
      ⟨hencodes.eval_values, eval_values_of_le _ c⟩⟩
  · rintro i j s s' c c' ⟨hs, hc⟩ ⟨hs', hc'⟩ hsome hmissing hsome' hmissing'
    -- both conditions are looked up in the table that has taken the whole sequence
    have hfinal : ∀ {i : Nat} {s : CharSet} {c : Condition}, sets[i]? = some s →
        (empty.internAll sets).2[i]? = some c → (empty.internAll sets).1.Encodes s c := by
      intro i s c hs hc
      have h := encodes_internAll hs hc (List.getElem?_eq_some_iff.mp hs).1
      rwa [List.take_length] at h
    obtain ⟨side, x, htests⟩ := exists_tests hsome hmissing
    obtain ⟨side', y, htests'⟩ := exists_tests hsome' hmissing'
    obtain ⟨a, rfl, ha⟩ := (hfinal hs hc).exists_signal htests
    obtain ⟨b, rfl, hb⟩ := (hfinal hs' hc').exists_signal htests'
    refine ⟨a, x, b, y, rfl, rfl, ?_, htests.flag_eq htests', htests.flag_eq_not htests'⟩
    rw [(irredundant_empty.internAll sets).id_eq_iff ha hb]
    exact htests.eq_iff htests'

end SignalTable

end SignalRegex
