import SignalRegex.Proofs.MatcherAnswers

/-!
What merging and pruning do to the answers of a matcher.

Pruning changes no answer. Merging changes none on texts that the comparators can see, and on other
texts it can only add a match: an edge that was made from several has the union of their labels, and
past the limit of the comparators the condition of a union can hold where those of its parts do not.
A choice between two parts of the alphabet, each less than half of it and together more, is a
pattern where it does.
-/

set_option autoImplicit false

namespace SignalRegex.Matcher

/-- A matcher without a limit on states that was offered one pattern, its machine and its
answers. -/
theorem exists_machine_of_parse (name : String) (minimize prune : Bool) {depth : Nat}
    {source : String} {r : Regex} (hr : Regex.parseWithin depth source = .ok r) :
    ∃ m machine, (new name ⟨minimize, prune, none, depth⟩).append source = (.ok 0, m) ∧
      Machine.build m.program = .ok machine ∧
      ∀ bytes : List UInt8,
        (machine.run bytes).2.malformed = (Decoder.start.pushAll bytes).1.malformed ∧
        ∃ b, (machine.run bytes).2.accepted = [b] ∧
          (b = true ↔ (Config.reduced ⟨minimize, prune, none, depth⟩
            (Automaton.ofRegex r).withoutEpsilon).AcceptsBy .tested
              (Decoder.start.pushAll bytes).2) := by
  let c : Config := ⟨minimize, prune, none, depth⟩
  have happend := append_new (c := c) name hr (Config.admits_of_stateLimit_eq_none rfl r)
  obtain ⟨hkeeps, -⟩ := (keeps_new name c).append happend
  obtain ⟨machine, hbuild⟩ := hkeeps.exists_build
  refine ⟨_, machine, happend, hbuild, fun bytes ↦ ⟨Machine.malformed_run hbuild bytes, ?_⟩⟩
  exact hkeeps.accepted_run_singleton (carries_install (new name c) source (c.compiled r)) hbuild
    bytes

/-- Without merging, the reduced automaton accepts the same under every reading. -/
theorem Config.acceptsBy_reduced_of_minimize_eq_false {c : Config} (h : c.minimize = false)
    {N : Automaton} {ρ : Reading} {w : List Nat} :
    (c.reduced N).AcceptsBy ρ w ↔ N.AcceptsBy ρ w := by
  rw [Config.reduced, h]
  cases c.prune with
  | false => exact Iff.rfl
  | true => exact Automaton.acceptsBy_prune

/-- A pattern that can be read is compiled with and without the reductions. Both programs run. On
all bytes they agree on whether the bytes are malformed, and what matches without the reductions
matches with them. Without merging, or where the comparators can see all code points, the answers
are the same. -/
theorem run_of_reductions (name : String) (minimize prune : Bool) (depth : Nat) (source : String)
    (r : Regex) (hr : Regex.parseWithin depth source = .ok r) :
    ∃ reduced plain small full,
      (new name ⟨minimize, prune, none, depth⟩).append source = (.ok 0, reduced) ∧
      (new name ⟨false, false, none, depth⟩).append source = (.ok 0, plain) ∧
      Machine.build reduced.program = .ok small ∧ Machine.build plain.program = .ok full ∧
      ∀ bytes : List UInt8,
        (small.run bytes).2.malformed = (full.run bytes).2.malformed ∧
        ((full.run bytes).2.accepted = [true] → (small.run bytes).2.accepted = [true]) ∧
        (minimize = false ∨ (∀ cp ∈ (Decoder.start.pushAll bytes).2, cp < testableLimit) →
          (small.run bytes).2 = (full.run bytes).2) := by
  obtain ⟨reduced, small, happend, hbuild, hreduced⟩ :=
    exists_machine_of_parse name minimize prune hr
  obtain ⟨plain, full, happend', hbuild', hplain⟩ := exists_machine_of_parse name false false hr
  refine ⟨reduced, plain, small, full, happend, happend', hbuild, hbuild', fun bytes ↦ ?_⟩
  obtain ⟨hmalformed, b, hb, haccepts⟩ := hreduced bytes
  obtain ⟨hmalformed', b', hb', haccepts'⟩ := hplain bytes
  have hrefines := Config.refines_reduced ⟨minimize, prune, none, depth⟩
    (Automaton.ofRegex r).withoutEpsilon
  have hsame := hmalformed.trans hmalformed'.symm
  refine ⟨hsame, fun hmatch ↦ ?_, fun hclear ↦ ?_⟩
  · have hplain : b' = true := List.singleton_inj.mp (hb'.symm.trans hmatch)
    have hreduced' := haccepts.mpr (hrefines.keeps .tested _ (haccepts'.mp hplain))
    rw [hb, hreduced']
  · have hagree : b = b' := by
      rw [Bool.eq_iff_iff, haccepts, haccepts']
      rcases hclear with hminimize | htestable
      · exact Config.acceptsBy_reduced_of_minimize_eq_false hminimize
      · rw [Automaton.acceptsBy_tested_iff htestable, Automaton.acceptsBy_tested_iff htestable]
        exact hrefines.accepts_iff.symm
    have haccepted := hb.trans (hagree ▸ hb'.symm)
    have hresult := congrArg₂ MatchResult.mk haccepted hsame
    exact hresult

/-! ### A choice between two parts of the alphabet -/

/-- Three eighths of the alphabet. -/
def lowerPart : CharSet :=
  ⟨[⟨0, 0xC0000, by decide, by decide⟩], by decide⟩

/-- The next three eighths. -/
def upperPart : CharSet :=
  ⟨[⟨0xC0000, 0x180000, by decide, by decide⟩], by decide⟩

/-- A choice between one code point of either part. -/
def splitSource : String :=
  "[\\x00-\\u0BFFFF]|[\\u0C0000-\\u17FFFF]"

theorem parseWithin_splitSource : Regex.parseWithin Regex.defaultDepth splitSource =
    .ok (.alternate [.set lowerPart, .set upperPart]) := by
  with_unfolding_all rfl

/-- The answers of both programs for a choice between two parts of the alphabet, on a text in one of
the parts. -/
theorem run_of_reductions_splitSource :
    Regex.parseWithin Regex.defaultDepth splitSource =
      .ok (.alternate [.set lowerPart, .set upperPart]) ∧
    ∃ reduced plain small full,
      (new "m" ⟨true, true, none, Regex.defaultDepth⟩).append splitSource = (.ok 0, reduced) ∧
      (new "m" ⟨false, false, none, Regex.defaultDepth⟩).append splitSource = (.ok 0, plain) ∧
      Machine.build reduced.program = .ok small ∧ Machine.build plain.program = .ok full ∧
      (small.run [0x61]).2 = (full.run [0x61]).2 := by
  obtain ⟨reduced, plain, small, full, happend, happend', hbuild, hbuild', hruns⟩ :=
    run_of_reductions "m" true true _ _ _ parseWithin_splitSource
  have hsame := (hruns [0x61]).2.2 (Or.inr (by decide))
  exact ⟨parseWithin_splitSource, reduced, plain, small, full, happend, happend', hbuild, hbuild',
    hsame⟩

theorem edgeCount_lowerPart : lowerPart.edgeCount = 24576 :=
  card_edgesIn_singleton _

theorem edgeCount_upperPart : upperPart.edgeCount = 24576 :=
  card_edgesIn_singleton _

/-- The two choices side by side. -/
def splitAutomaton : Automaton :=
  .ofEdges 4 [⟨0, lowerPart, 2⟩, ⟨1, upperPart, 3⟩] [] [0, 1] [2, 3]

/-- The two choices with one final state. -/
def joinedAutomaton : Automaton :=
  .ofEdges 3 [⟨0, lowerPart, 2⟩, ⟨1, upperPart, 2⟩] [] [0, 1] [2]

theorem withoutEpsilon_split :
    (Automaton.ofRegex (.alternate [.set lowerPart, .set upperPart])).withoutEpsilon =
      splitAutomaton := by
  decide +kernel

theorem mergeRound?_split : splitAutomaton.mergeRound? = some joinedAutomaton := by
  decide +kernel

theorem mergeRound?_joined : joinedAutomaton.mergeRound? = none := by
  decide +kernel

/-- The joined automaton read backwards. -/
def forkedAutomaton : Automaton :=
  .ofEdges 3 [⟨0, lowerPart, 1⟩, ⟨0, upperPart, 2⟩] [] [0] [1, 2]

theorem reverse_joined : joinedAutomaton.reverse = forkedAutomaton := by
  decide +kernel

theorem reads_merged_forked {c : Nat} (hc : c < 0x180000) : forkedAutomaton.merged.Reads 0 c 1 := by
  have hzero : forkedAutomaton.representative forkedAutomaton.reachable 0 = 0 := by
    decide +kernel
  have hiff := (Automaton.renaming_merged forkedAutomaton).reads 0 (by decide +kernel) c 1
  rw [hzero] at hiff
  refine hiff.mpr ?_
  by_cases hlower : c < 0xC0000
  · have hmem : c ∈ lowerPart := ⟨_, List.mem_cons_self, Nat.zero_le c, hlower⟩
    have hread : forkedAutomaton.Reads 0 c 1 := Automaton.reads_ofEdges.mpr
      ⟨by decide, by decide, _, List.mem_cons_self, rfl, rfl, hmem⟩
    exact ⟨1, hread, by decide +kernel⟩
  · have hmem : c ∈ upperPart := ⟨_, List.mem_cons_self, Nat.le_of_not_lt hlower, hc⟩
    have hread : forkedAutomaton.Reads 0 c 2 := Automaton.reads_ofEdges.mpr
      ⟨by decide, by decide, _, List.mem_cons_of_mem _ List.mem_cons_self, rfl, rfl, hmem⟩
    exact ⟨2, hread, by decide +kernel⟩

/-- The merged edge has three quarters of the alphabet, so its condition is a negated one. -/
theorem acceptsBy_merged_forked {cp : Nat} (hcp : testableLimit ≤ cp) :
    forkedAutomaton.merged.AcceptsBy .tested [cp] := by
  -- the joined label is not computed: there is one, and it has the code points of both parts
  obtain ⟨label, hlabel, -⟩ := reads_merged_forked (show 0 < 0x180000 by decide)
  let both : CharSet := ⟨[⟨0, 0x180000, by decide, by decide⟩], by decide⟩
  have hlarge : ∀ c ∈ both, c ∈ label := by
    intro c ⟨x, hx, hc⟩
    obtain rfl := List.mem_singleton.mp hx
    obtain ⟨other, hother, hmem⟩ := reads_merged_forked hc.2
    exact EdgeMap.label_unique hother hlabel ▸ hmem
  have hcount := CharSet.edgeCount_mono hlarge
  rw [CharSet.edgeCount, card_edgesIn_singleton] at hcount
  have hprevails : label.Prevails := Or.inl (Nat.lt_of_lt_of_le (by decide) hcount)
  have hread : forkedAutomaton.merged.ReadsBy .tested 0 cp 1 :=
    ⟨label, hlabel, (CharSet.tested_iff_prevails hcp).mpr hprevails⟩
  have hinitial : 0 ∈ forkedAutomaton.merged.initial :=
    ((Automaton.renaming_merged _).initial 0).mpr ⟨0, by decide, by decide +kernel⟩
  have hfinal : forkedAutomaton.representative forkedAutomaton.reachable 1 ∈
      forkedAutomaton.merged.finals :=
    ((Automaton.renaming_merged _).finals 1 (by decide +kernel)).mpr (by decide)
  have hone : forkedAutomaton.representative forkedAutomaton.reachable 1 = 1 := by
    decide +kernel
  exact ⟨0, hinitial, 1, hone ▸ hfinal, .read hread (.refl 1)⟩

theorem acceptsBy_minimize_split {cp : Nat} (hcp : testableLimit ≤ cp) :
    splitAutomaton.minimize.AcceptsBy .tested [cp] := by
  have hforward : splitAutomaton.collapse.1 = joinedAutomaton :=
    (Automaton.collapse_of_mergeRound?_eq_some mergeRound?_split).trans
      (Automaton.collapse_of_mergeRound?_eq_none mergeRound?_joined)
  have hround : forkedAutomaton.mergeRound? = some forkedAutomaton.merged.compact :=
    Automaton.mergeRound?_eq_some_merged (by decide +kernel)
  apply Automaton.acceptsBy_minimize_of_collapse
  rw [hforward, reverse_joined, Automaton.collapse_of_mergeRound?_eq_some hround,
    Automaton.acceptsBy_reverse]
  exact (Automaton.refines_collapse _).keeps .tested _
    (Automaton.acceptsBy_compact.mpr (acceptsBy_merged_forked hcp))

theorem not_tested_of_edgeCount_lt {s : CharSet} {cp : Nat} (hcp : testableLimit ≤ cp)
    (h : s.edgeCount < blockCount) : ¬ s.Tested cp := by
  rw [CharSet.tested_iff_prevails hcp, CharSet.Prevails]
  omega

/-- Neither part alone lets a code point past the limit through. -/
theorem not_acceptsBy_split {cp : Nat} (hcp : testableLimit ≤ cp) :
    ¬ splitAutomaton.AcceptsBy .tested [cp] := by
  intro ⟨i, hi, f, _, hchain⟩
  have hfree : splitAutomaton.EpsilonFree :=
    fun _ _ h ↦ List.not_mem_nil (Automaton.slides_ofEdges.mp h).2.2
  obtain ⟨t, ⟨label, hlabel, htested⟩, -⟩ := (Chain.cons_iff hfree).mp hchain
  have hlower : ¬ lowerPart.Tested cp :=
    not_tested_of_edgeCount_lt hcp (edgeCount_lowerPart ▸ by decide)
  have hupper : ¬ upperPart.Tested cp :=
    not_tested_of_edgeCount_lt hcp (edgeCount_upperPart ▸ by decide)
  have hedges : ∀ i ∈ splitAutomaton.initial.toList, ∀ e ∈ (splitAutomaton.state i).real.toList,
      e.2 = lowerPart ∨ e.2 = upperPart := by
    decide +kernel
  rcases hedges i hi _ hlabel with rfl | rfl
  · exact hlower htested
  · exact hupper htested

/-- Merging and pruning add a match: the choice between two parts of the alphabet matches the code
point 180000, which is in neither, once the edges of the parts are one edge. -/
theorem merging_adds_match : ∃ reduced plain small full,
    (new "m" ⟨true, true, none, Regex.defaultDepth⟩).append splitSource = (.ok 0, reduced) ∧
    (new "m" ⟨false, false, none, Regex.defaultDepth⟩).append splitSource = (.ok 0, plain) ∧
    Machine.build reduced.program = .ok small ∧ Machine.build plain.program = .ok full ∧
    (small.run [0xF6, 0x80, 0x80, 0x80]).2.accepted = [true] ∧
    (full.run [0xF6, 0x80, 0x80, 0x80]).2.accepted = [false] := by
  obtain ⟨reduced, small, happend, hbuild, hreduced⟩ :=
    exists_machine_of_parse "m" true true parseWithin_splitSource
  obtain ⟨plain, full, happend', hbuild', hplain⟩ :=
    exists_machine_of_parse "m" false false parseWithin_splitSource
  obtain ⟨-, b, hb, haccepts⟩ := hreduced [0xF6, 0x80, 0x80, 0x80]
  obtain ⟨-, b', hb', haccepts'⟩ := hplain [0xF6, 0x80, 0x80, 0x80]
  have hdecoded : (Decoder.start.pushAll [0xF6, 0x80, 0x80, 0x80]).2 = [0x180000] := by decide
  have hlimit : testableLimit ≤ 0x180000 := by decide
  rw [hdecoded, withoutEpsilon_split] at haccepts haccepts'
  have hmatch : b = true :=
    haccepts.mpr (Automaton.acceptsBy_prune.mpr (acceptsBy_minimize_split hlimit))
  have hmiss : b' = false :=
    Bool.eq_false_iff.mpr fun h ↦ not_acceptsBy_split hlimit (haccepts'.mp h)
  exact ⟨reduced, plain, small, full, happend, happend', hbuild, hbuild', hmatch ▸ hb, hmiss ▸ hb'⟩

end SignalRegex.Matcher
