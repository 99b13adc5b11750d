import SignalRegex.Proofs.CompiledPatterns
import SignalRegex.Proofs.DecodedText

/-!
What the program of a matcher answers.

For every pattern it took, a matcher answers by the reduced automaton of that pattern alone
(`Carries.accepted_run`). On texts that the comparators can see this is whether the pattern matches
the text, and on all texts it is what a matcher answers that has no other pattern.
-/

set_option autoImplicit false

namespace SignalRegex.Matcher

/-- A matcher that carries patterns has a machine. -/
theorem Keeps.exists_build {m : Matcher} {taken : List String} (h : m.Keeps taken) :
    ∃ machine, Machine.build m.program = .ok machine :=
  h.sound.exists_build

theorem Keeps.length_accepted_run {m : Matcher} {taken : List String} (h : m.Keeps taken)
    {machine : Machine} (hbuild : Machine.build m.program = .ok machine) (bytes : List UInt8) :
    (machine.run bytes).2.accepted.length = taken.length :=
  (Machine.length_accepted_run hbuild bytes).trans h.length

theorem Carries.accepted_run {m : Matcher} {i : Nat} {c : Config} {r : Regex}
    (h : m.Carries i (c.compiled r)) {machine : Machine}
    (hbuild : Machine.build m.program = .ok machine) (bytes : List UInt8) :
    ∃ b, (machine.run bytes).2.accepted[i]? = some b ∧
      (b = true ↔ (c.reduced (Automaton.ofRegex r).withoutEpsilon).AcceptsBy .tested
        (Decoder.start.pushAll bytes).2) := by
  obtain ⟨pattern, hpattern, hmatches⟩ := h.matchesAt_iff (c.epsilonFree_compiled r)
  obtain ⟨b, hb, hiff⟩ := Machine.accepted_run hbuild bytes hpattern
  exact ⟨b, hb, hiff.trans ((hmatches _).trans Config.acceptsBy_compiled)⟩

theorem Keeps.accepted_run_singleton {m : Matcher} {source : String} (h : m.Keeps [source])
    {c : Config} {r : Regex} (hcarries : m.Carries 0 (c.compiled r)) {machine : Machine}
    (hbuild : Machine.build m.program = .ok machine) (bytes : List UInt8) :
    ∃ b, (machine.run bytes).2.accepted = [b] ∧
      (b = true ↔ (c.reduced (Automaton.ofRegex r).withoutEpsilon).AcceptsBy .tested
        (Decoder.start.pushAll bytes).2) := by
  obtain ⟨b, hb, haccepts⟩ := hcarries.accepted_run hbuild bytes
  obtain ⟨a, ha⟩ := List.length_eq_one_iff.mp (h.length_accepted_run hbuild bytes)
  rw [ha] at hb
  exact ⟨b, ha.trans (congrArg (fun a ↦ [a]) (Option.some.inj hb)), haccepts⟩

/-- Whatever texts a matcher was offered, its program runs, and on a text that the comparators can
see, which every well-formed one is, the patterns it took are answered by their languages. -/
theorem accepted_run_iff_matches (name : String) (config : Config) (attempts : List String) :
    ∃ machine, Machine.build ((new name config).offerAll attempts).1.program = .ok machine ∧
      ∀ bytes : List UInt8,
        ((machine.run bytes).2.malformed = false →
          ∀ cp ∈ (Decoder.start.pushAll bytes).2, cp < testableLimit) ∧
        ((∀ cp ∈ (Decoder.start.pushAll bytes).2, cp < testableLimit) →
          (machine.run bytes).2.accepted.length = ((new name config).offerAll attempts).2.length ∧
          ∀ (i : Nat) (source : String),
            ((new name config).offerAll attempts).2[i]? = some source →
              ∃ r b, Regex.parseWithin config.depth source = .ok r ∧
                (machine.run bytes).2.accepted[i]? = some b ∧
                (b = true ↔ r.Matches (Decoder.start.pushAll bytes).2)) := by
  obtain ⟨hkeeps, hconfig⟩ := keeps_offerAll name config attempts
  obtain ⟨machine, hbuild⟩ := hkeeps.exists_build
  refine ⟨machine, hbuild, fun bytes ↦ ⟨fun hok ↦ ?_, fun htestable ↦ ⟨?_, fun i source hi ↦ ?_⟩⟩⟩
  · rw [Machine.malformed_run hbuild] at hok
    exact Decoder.lt_testableLimit_of_malformed_eq_false hok
  · exact hkeeps.length_accepted_run hbuild bytes
  · obtain ⟨r, hr, _, hcarries⟩ := hkeeps.carries i source hi
    obtain ⟨b, hb, haccepts⟩ := hcarries.accepted_run hbuild bytes
    rw [hconfig] at hr haccepts
    have hmatches := Config.acceptsBy_reduced_iff_matches (c := config)
      (w := (Decoder.start.pushAll bytes).2) (Regex.proper_of_parseWithin hr)
    exact ⟨r, b, hr, hb, haccepts.trans ((Automaton.acceptsBy_tested_iff htestable).trans hmatches)⟩

/-- The texts `b` and `c` for a choice between two letters, after a text that cannot be read. -/
theorem accepted_run_iff_matches_choice :
    ((new "m" ⟨false, true, some 10, 3⟩).offerAll ["(", "a|b"]).2 = ["a|b"] ∧
    ∃ machine,
      Machine.build ((new "m" ⟨false, true, some 10, 3⟩).offerAll ["(", "a|b"]).1.program =
        .ok machine ∧
      (machine.run [0x62]).2.accepted[0]? = some true ∧
      (machine.run [0x63]).2.accepted[0]? = some false := by
  have htaken : ((new "m" ⟨false, true, some 10, 3⟩).offerAll ["(", "a|b"]).2 = ["a|b"] := by
    decide +kernel
  have hparse : Regex.parseWithin 3 "a|b" = .ok (.alternate
      [.set ⟨[⟨0x61, 0x62, by decide, by decide⟩], by decide⟩,
        .set ⟨[⟨0x62, 0x63, by decide, by decide⟩], by decide⟩]) := by
    with_unfolding_all rfl
  obtain ⟨machine, hbuild, hruns⟩ :=
    accepted_run_iff_matches "m" ⟨false, true, some 10, 3⟩ ["(", "a|b"]
  obtain ⟨-, hb⟩ := (hruns [0x62]).2 (by decide)
  obtain ⟨-, hc⟩ := (hruns [0x63]).2 (by decide)
  obtain ⟨r, b, hr, hb, hmatch⟩ := hb 0 "a|b" (by rw [htaken]; rfl)
  obtain ⟨r', c, hr', hc, hmiss⟩ := hc 0 "a|b" (by rw [htaken]; rfl)
  obtain rfl := Except.ok.inj (hr.symm.trans hparse)
  obtain rfl := Except.ok.inj (hr'.symm.trans hparse)
  have htrue : b = true :=
    hmatch.mpr (.alternate (List.mem_cons_of_mem _ List.mem_cons_self) (.set (by decide)))
  have hdecoded : (Decoder.start.pushAll [0x63]).2 = [0x63] := by decide
  have hfalse : c = false := by
    refine Bool.eq_false_iff.mpr fun h ↦ ?_
    rw [hdecoded] at hmiss
    obtain ⟨q, hq, hw⟩ := Regex.matches_alternate.mp (hmiss.mp h)
    rcases List.mem_pair.mp hq with rfl | rfl
    · obtain ⟨cp, hcp, hw⟩ := Regex.matches_set.mp hw
      obtain rfl := List.singleton_inj.mp hw
      exact absurd hcp (by decide)
    · obtain ⟨cp, hcp, hw⟩ := Regex.matches_set.mp hw
      obtain rfl := List.singleton_inj.mp hw
      exact absurd hcp (by decide)
  exact ⟨htaken, machine, hbuild, htrue ▸ hb, hfalse ▸ hc⟩

/-- A pattern that a matcher took is answered, on all bytes, as by a matcher of the same
configuration that was offered this pattern alone. -/
theorem accepted_run_eq_alone (name other : String) (config : Config) (attempts : List String)
    (i : Nat) (source : String)
    (hi : ((new name config).offerAll attempts).2[i]? = some source) :
    ∃ alone machine single, (new other config).append source = (.ok 0, alone) ∧
      Machine.build ((new name config).offerAll attempts).1.program = .ok machine ∧
      Machine.build alone.program = .ok single ∧
      ∀ bytes : List UInt8, ∃ b, (machine.run bytes).2.accepted[i]? = some b ∧
        (single.run bytes).2.accepted = [b] ∧
        (machine.run bytes).2.malformed = (single.run bytes).2.malformed := by
  obtain ⟨hkeeps, hconfig⟩ := keeps_offerAll name config attempts
  obtain ⟨r, hr, hadmits, hcarries⟩ := hkeeps.carries i source hi
  rw [hconfig] at hr hadmits hcarries
  have happend := append_new other hr hadmits
  obtain ⟨hsingle, -⟩ := (keeps_new other config).append happend
  obtain ⟨machine, hbuild⟩ := hkeeps.exists_build
  obtain ⟨single, hbuild'⟩ := hsingle.exists_build
  refine ⟨_, machine, single, happend, hbuild, hbuild', fun bytes ↦ ?_⟩
  have halone := carries_install (new other config) source (config.compiled r)
  obtain ⟨b, hb, haccepts⟩ := hcarries.accepted_run hbuild bytes
  obtain ⟨b', hb', haccepts'⟩ := hsingle.accepted_run_singleton halone hbuild' bytes
  obtain rfl : b = b' := Bool.eq_iff_iff.mpr (haccepts.trans haccepts'.symm)
  refine ⟨b, hb, hb', ?_⟩
  rw [Machine.malformed_run hbuild, Machine.malformed_run hbuild']

/-- The second pattern taken, beside a choice and after a text that cannot be read, on a text with a
lead byte that no encoder writes. -/
theorem accepted_run_eq_alone_second :
    ((new "m" ⟨false, true, some 10, 3⟩).offerAll ["a|b", "(", "[a-z]*c"]).2[1]? = some "[a-z]*c" ∧
    ∃ alone machine single,
      (new "n" ⟨false, true, some 10, 3⟩).append "[a-z]*c" = (.ok 0, alone) ∧
      Machine.build ((new "m" ⟨false, true, some 10, 3⟩).offerAll
        ["a|b", "(", "[a-z]*c"]).1.program = .ok machine ∧
      Machine.build alone.program = .ok single ∧
      ∃ b, (machine.run [0xF6, 0x80, 0x80, 0x80, 0x63]).2.accepted[1]? = some b ∧
        (single.run [0xF6, 0x80, 0x80, 0x80, 0x63]).2.accepted = [b] := by
  have htaken : ((new "m" ⟨false, true, some 10, 3⟩).offerAll ["a|b", "(", "[a-z]*c"]).2[1]? =
      some "[a-z]*c" := by
    decide +kernel
  obtain ⟨alone, machine, single, happend, hbuild, hbuild', hruns⟩ :=
    accepted_run_eq_alone "m" "n" _ _ 1 _ htaken
  obtain ⟨b, hb, hb', -⟩ := hruns [0xF6, 0x80, 0x80, 0x80, 0x63]
  exact ⟨htaken, alone, machine, single, happend, hbuild, hbuild', b, hb, hb'⟩

end SignalRegex.Matcher
