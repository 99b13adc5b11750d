import SignalRegex.Proofs.EpsilonRemoval
import SignalRegex.Proofs.Installation
import SignalRegex.Proofs.ParsedPatterns
import SignalRegex.Proofs.Reductions

/-!
What becomes of a pattern that is offered to a matcher.

A pattern is added when it can be read and every stage stays within the limit on states, and then
the reversed automaton of its reduced form is installed (`append_eq_ok_iff`). A pattern that cannot
be added leaves the matcher as it was, so after any number of attempts, each on the matcher that the
one before left, the matcher carries the patterns it took, in the order in which it took them
(`keeps_offerAll`).
-/

set_option autoImplicit false

namespace SignalRegex

/-! ### Computations with a log, without their log -/

namespace Compiling

variable {α β : Type}

theorem value_run_bind (x : Compiling α) (f : α → Compiling β) :
    (x >>= f).run.value = x.run.value >>= fun a ↦ (f a).run.value := by
  change (ExceptT.bindCont f x.run.value).value = _
  cases x.run.value with
  | error e => rfl
  | ok a => rfl

theorem value_run_lift (x : Except CompileError α) : (liftM x : Compiling α).run.value = x := by
  cases x with
  | error e => rfl
  | ok a => rfl

end Compiling

namespace Matcher

namespace Config

/-- The automaton after the reductions that the configuration asks for. -/
def reduced (c : Config) (N : Automaton) : Automaton :=
  let M := if c.minimize then N.minimize else N
  if c.prune then M.prune.1 else M

/-- The reversed automaton of a pattern. -/
def compiled (c : Config) (r : Regex) : Automaton :=
  (c.reduced (Automaton.ofRegex r).withoutEpsilon).reverse

theorem value_run_reportStage (source : String) (N : Automaton) (stage : String) :
    (reportStage source N stage).run.value = pure () :=
  rfl

theorem value_run_merge (c : Config) (source : String) (N : Automaton) :
    (c.merge source N).run.value = pure (if c.minimize then N.minimize else N) := by
  unfold merge
  cases c.minimize with
  | false => rfl
  | true => rfl

theorem value_run_pruned (c : Config) (source : String) (N : Automaton) :
    (c.pruned source N).run.value = pure (if c.prune then N.prune.1 else N) := by
  unfold pruned
  cases c.prune with
  | false => rfl
  | true =>
    obtain ⟨M, changed⟩ := N.prune
    cases changed with
    | false => rfl
    | true => rfl

theorem value_run_automaton (c : Config) (source : String) :
    (c.automaton source).run.value = (do
      let r ← Regex.parseWithin c.depth source
      c.checkLimit (Automaton.ofRegex r).size
      c.checkLimit (Automaton.ofRegex r).withoutEpsilon.size
      return c.reduced (Automaton.ofRegex r).withoutEpsilon) := by
  unfold automaton
  simp only [Compiling.value_run_bind, Compiling.value_run_lift, value_run_reportStage,
    value_run_merge, value_run_pruned, pure_bind]
  rfl

/-! ### The automaton of a pattern -/

theorem refines_reduced (c : Config) (N : Automaton) : N.Refines (c.reduced N) := by
  have hprune (M : Automaton) : M.Refines (if c.prune then M.prune.1 else M) := by
    split_ifs with h
    · exact .of_iff fun _ _ ↦ Automaton.acceptsBy_prune.symm
    · exact .refl M
  have hmerge : N.Refines (if c.minimize then N.minimize else N) := by
    split_ifs with h
    · exact Automaton.refines_minimize N
    · exact .refl N
  exact hmerge.trans (hprune _)

/-- What the configuration asks for once the epsilon edges are gone, and the reversal. -/
def passes (c : Config) : List Automaton.Pass :=
  (if c.minimize then [.minimize] else []) ++ (if c.prune then [.prune] else []) ++ [.reverse]

theorem compiled_eq_runAll (c : Config) (r : Regex) :
    c.compiled r = Automaton.Pass.runAll c.passes (Automaton.ofRegex r).withoutEpsilon := by
  unfold compiled reduced passes
  dsimp only
  generalize (Automaton.ofRegex r).withoutEpsilon = N
  split_ifs with hprune hminimize hminimize
  · rfl
  · rfl
  · rfl
  · rfl

theorem epsilonFree_compiled (c : Config) (r : Regex) : (c.compiled r).EpsilonFree := by
  rw [compiled_eq_runAll]
  exact (Automaton.epsilonFree_withoutEpsilon _).runAll _

theorem acceptsBy_compiled {c : Config} {r : Regex} {ρ : Reading} {w : List Nat} :
    (c.compiled r).AcceptsBy ρ w.reverse ↔
      (c.reduced (Automaton.ofRegex r).withoutEpsilon).AcceptsBy ρ w := by
  rw [compiled, Automaton.acceptsBy_reverse, List.reverse_reverse]

/-- Under every configuration the automaton of a pattern accepts what the pattern matches. -/
theorem acceptsBy_reduced_iff_matches {c : Config} {r : Regex} {w : List Nat} (hr : r.Proper) :
    (c.reduced (Automaton.ofRegex r).withoutEpsilon).AcceptsBy .member w ↔ r.Matches w :=
  calc (c.reduced (Automaton.ofRegex r).withoutEpsilon).AcceptsBy .member w
    _ ↔ (Automaton.ofRegex r).withoutEpsilon.AcceptsBy .member w :=
      (c.refines_reduced _).accepts_iff.symm
    _ ↔ (Automaton.ofRegex r).AcceptsBy .member w := Automaton.acceptsBy_withoutEpsilon
    _ ↔ r.Matches w := Automaton.acceptsBy_ofRegex hr

/-! ### Limits -/

/-- The pattern stays within the limit on states at every stage, as long as it is alone. -/
def Admits (c : Config) (r : Regex) : Prop :=
  c.checkLimit (Automaton.ofRegex r).size = .ok () ∧
    c.checkLimit (Automaton.ofRegex r).withoutEpsilon.size = .ok () ∧
    c.checkLimit (c.compiled r).size = .ok ()

variable {c : Config}

theorem checkLimit_eq_ok_iff {states : Nat} :
    c.checkLimit states = .ok () ↔ ∀ limit, c.stateLimit = some limit → states ≤ limit := by
  unfold checkLimit
  cases c.stateLimit with
  | none => simp
  | some limit =>
    by_cases hmany : limit < states
    · simp [hmany]
    · simp [hmany, Nat.le_of_not_lt hmany]

theorem checkLimit_mono {few many : Nat} (h : c.checkLimit many = .ok ()) (hle : few ≤ many) :
    c.checkLimit few = .ok () :=
  checkLimit_eq_ok_iff.mpr fun limit hlimit ↦
    Nat.le_trans hle (checkLimit_eq_ok_iff.mp h limit hlimit)

theorem checkLimit_of_stateLimit_eq_none (h : c.stateLimit = none) (states : Nat) :
    c.checkLimit states = .ok () := by
  rw [checkLimit, h]

theorem admits_of_stateLimit_eq_none (h : c.stateLimit = none) (r : Regex) : c.Admits r :=
  ⟨checkLimit_of_stateLimit_eq_none h _, checkLimit_of_stateLimit_eq_none h _,
    checkLimit_of_stateLimit_eq_none h _⟩

end Config

/-! ### Patterns that are added -/

variable {m grown : Matcher} {source : String} {id : Nat}

/-- What it takes for a pattern to be added. -/
theorem vetted_eq_ok_iff {R : Automaton} : m.vetted source = .ok R ↔
    ∃ r, Regex.parseWithin m.config.depth source = .ok r ∧
      m.config.checkLimit (Automaton.ofRegex r).size = .ok () ∧
      m.config.checkLimit (Automaton.ofRegex r).withoutEpsilon.size = .ok () ∧
      m.config.checkLimit (m.states.length + (m.config.compiled r).size) = .ok () ∧
      R = m.config.compiled r := by
  rw [vetted, Config.value_run_automaton]
  constructor
  · intro h
    obtain ⟨N, hN, h⟩ := exists_of_bind_eq_ok h
    obtain ⟨_, hlimit, h⟩ := exists_of_bind_eq_ok h
    obtain ⟨r, hr, hN⟩ := exists_of_bind_eq_ok hN
    obtain ⟨_, hbuilt, hN⟩ := exists_of_bind_eq_ok hN
    obtain ⟨_, hbare, hN⟩ := exists_of_bind_eq_ok hN
    obtain rfl := Except.ok.inj hN
    exact ⟨r, hr, hbuilt, hbare, hlimit, (Except.ok.inj h).symm⟩
  · rintro ⟨r, hr, hbuilt, hbare, hlimit, hR⟩
    -- each `change` runs the steps up to the next check of the limit
    rw [hR, hr]
    change (m.config.checkLimit _ >>= fun _ ↦ _) >>= _ = _
    rw [hbuilt]
    change (m.config.checkLimit _ >>= fun _ ↦ _) >>= _ = _
    rw [hbare]
    change m.config.checkLimit _ >>= _ = _
    rw [Config.compiled] at hlimit
    rw [hlimit]
    rfl

/-- What it takes for a pattern to be added, and what is added then. -/
theorem append_eq_ok_iff : m.append source = (.ok id, grown) ↔
    ∃ r, Regex.parseWithin m.config.depth source = .ok r ∧
      m.config.checkLimit (Automaton.ofRegex r).size = .ok () ∧
      m.config.checkLimit (Automaton.ofRegex r).withoutEpsilon.size = .ok () ∧
      m.config.checkLimit (m.states.length + (m.config.compiled r).size) = .ok () ∧
      grown = m.install source (m.config.compiled r) ∧ id = m.patterns.length := by
  rw [append_eq_ok_iff_vetted]
  constructor
  · rintro ⟨R, hvetted, hgrown, hid⟩
    obtain ⟨r, hr, hbuilt, hbare, hlimit, rfl⟩ := vetted_eq_ok_iff.mp hvetted
    exact ⟨r, hr, hbuilt, hbare, hlimit, hgrown, hid⟩
  · rintro ⟨r, hr, hbuilt, hbare, hlimit, hgrown, hid⟩
    exact ⟨_, vetted_eq_ok_iff.mpr ⟨r, hr, hbuilt, hbare, hlimit, rfl⟩, hgrown, hid⟩

/-- A pattern that was read and stays within the limits is added to an empty matcher. -/
theorem append_new (name : String) {c : Config} {r : Regex}
    (hr : Regex.parseWithin c.depth source = .ok r) (hadmits : c.Admits r) :
    (new name c).append source = (.ok 0, (new name c).install source (c.compiled r)) := by
  obtain ⟨hbuilt, hbare, hcompiled⟩ := hadmits
  refine append_eq_ok_iff.mpr ⟨r, hr, hbuilt, hbare, ?_, rfl, rfl⟩
  change c.checkLimit (0 + (c.compiled r).size) = .ok ()
  rw [Nat.zero_add]
  exact hcompiled

/-- The matcher with the texts it has taken, when it is offered one more. It goes on as the attempt
leaves it, whatever comes of the attempt. -/
def offer (state : Matcher × List String) (source : String) : Matcher × List String :=
  match state.1.append source with
  | (.ok _, grown) => (grown, state.2 ++ [source])
  | (.error _, left) => (left, state.2)

/-- The matcher after it was offered the texts one after the other, and the texts that it took. -/
def offerAll (m : Matcher) (sources : List String) : Matcher × List String :=
  sources.foldl offer (m, [])

/-- What holds before and is kept whenever a text is taken holds after any number of offers. -/
theorem offerAll_induction {motive : Matcher → List String → Prop} (sources : List String)
    (hstart : motive m [])
    (hstep : ∀ (m grown : Matcher) (taken : List String) (source : String) (id : Nat),
      motive m taken → m.append source = (.ok id, grown) → motive grown (taken ++ [source])) :
    motive (m.offerAll sources).1 (m.offerAll sources).2 := by
  have hoffer (state : Matcher × List String) (source : String) (h : motive state.1 state.2) :
      motive (offer state source).1 (offer state source).2 := by
    unfold offer
    rcases happend : state.1.append source with ⟨_ | id, left⟩
    · obtain ⟨_, rfl⟩ := append_eq_error_iff_vetted.mp happend
      exact h
    · exact hstep _ _ _ _ id h happend
  have hfold : ∀ state : Matcher × List String, motive state.1 state.2 →
      motive (sources.foldl offer state).1 (sources.foldl offer state).2 := by
    induction sources with
    | nil => exact fun state h ↦ h
    | cons source sources ih => exact fun state h ↦ ih _ (hoffer state source h)
  exact hfold (m, []) hstart

/-- The matcher carries the compiled patterns of the texts, and nothing else. -/
structure Keeps (m : Matcher) (taken : List String) : Prop where
  sound : m.Sound
  length : m.patterns.length = taken.length
  carries : ∀ (i : Nat) (source : String), taken[i]? = some source →
    ∃ r, Regex.parseWithin m.config.depth source = .ok r ∧ m.config.Admits r ∧
      m.Carries i (m.config.compiled r)

theorem keeps_new (name : String) (config : Config) : (new name config).Keeps [] :=
  ⟨sound_new name config, rfl, fun _ _ h ↦ absurd h nofun⟩

theorem Keeps.append {taken : List String} (h : m.Keeps taken)
    (happend : m.append source = (.ok id, grown)) :
    grown.Keeps (taken ++ [source]) ∧ grown.config = m.config := by
  obtain ⟨r, hr, hbuilt, hbare, hlimit, rfl, -⟩ := append_eq_ok_iff.mp happend
  have hadmits : m.config.Admits r :=
    ⟨hbuilt, hbare, Config.checkLimit_mono hlimit (Nat.le_add_left _ _)⟩
  refine ⟨⟨h.sound.install _ _, ?_, fun i s hs ↦ ?_⟩, rfl⟩
  · rw [length_patterns_install, h.length, List.length_append]
    rfl
  · by_cases hi : i < taken.length
    · rw [List.getElem?_append_left hi] at hs
      obtain ⟨r', hr', hadmits', hcarries⟩ := h.carries i s hs
      exact ⟨r', hr', hadmits', hcarries.install _ _⟩
    · rw [List.getElem?_append_right (Nat.le_of_not_lt hi), List.getElem?_singleton] at hs
      split_ifs at hs with hlast
      obtain rfl := Option.some.inj hs
      have hnew := carries_install m source (m.config.compiled r)
      have heq : i = m.patterns.length := by
        rw [h.length]
        omega
      exact ⟨r, hr, hadmits, heq ▸ hnew⟩

/-- However texts are offered, the matcher carries those it took. -/
theorem keeps_offerAll (name : String) (config : Config) (sources : List String) :
    ((new name config).offerAll sources).1.Keeps ((new name config).offerAll sources).2 ∧
      ((new name config).offerAll sources).1.config = config := by
  refine offerAll_induction (motive := fun m taken ↦ m.Keeps taken ∧ m.config = config) sources
    ⟨keeps_new name config, rfl⟩ ?_
  rintro m grown taken source id ⟨hkeeps, hconfig⟩ happend
  obtain ⟨hgrown, hsame⟩ := hkeeps.append happend
  exact ⟨hgrown, hsame.trans hconfig⟩

end Matcher

end SignalRegex
