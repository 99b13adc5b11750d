import SignalRegex.Proofs.CompiledPatterns

/-!
Patterns are added whole or not at all.

A text is refused when it cannot be read, or when one of three numbers of states is above the limit,
and the error names the first of them that is (`append_eq_error_iff`). A refused text leaves the
matcher as it was, and a text that is taken adds to the tables behind what is there
(`extends_append`), so every number that was given out stays good however many texts are offered
afterwards (`extends_offerAll`), and the refused ones leave no trace (`offerAll_taken`). Without a
limit only the reading can fail, so a list of texts compiles unless one of them cannot be read, and
the first such text is named (`compile_eq_error_iff`).
-/

set_option autoImplicit false

namespace SignalRegex

namespace Matcher

variable {m grown left last : Matcher} {source : String} {e : CompileError} {id : Nat}

/-! ### Refused texts -/

/-- The numbers of states that are held against the limit, in this order: those of the automaton as
it is built and without epsilon edges, and those of the matcher with the pattern. -/
def demands (m : Matcher) (r : Regex) : List Nat :=
  [(Automaton.ofRegex r).size, (Automaton.ofRegex r).withoutEpsilon.size,
    m.states.length + (m.config.compiled r).size]

/-- Why a text is not added: it cannot be read, or the first of the numbers that is above the limit
is the given one. -/
inductive Refuses (m : Matcher) (source : String) : CompileError → Prop where
  | unread {e : CompileError} :
      Regex.parseWithin m.config.depth source = .error e → Refuses m source e
  | exceeded {r : Regex} {limit states : Nat} :
      Regex.parseWithin m.config.depth source = .ok r → m.config.stateLimit = some limit →
        (m.demands r).find? (limit < ·) = some states →
          Refuses m source (.stateLimit limit states)

theorem vetted_eq_bind_demands (m : Matcher) (source : String) : m.vetted source = (do
    let r ← Regex.parseWithin m.config.depth source
    forM (m.demands r) m.config.checkLimit
    return m.config.compiled r) := by
  simp only [vetted, Config.value_run_automaton, demands, List.forM_cons, List.forM_nil,
    bind_assoc, pure_bind]
  rfl

/-- Numbers are refused for the first one above the limit. -/
theorem Config.forM_checkLimit_eq_error_iff {c : Config} {counts : List Nat} :
    forM counts c.checkLimit = .error e ↔ ∃ limit states, c.stateLimit = some limit ∧
      counts.find? (limit < ·) = some states ∧ e = .stateLimit limit states := by
  induction counts with
  | nil => simp [pure, Except.pure]
  | cons count counts ih =>
    rw [List.forM_cons]
    cases hlimit : c.stateLimit with
    | none =>
      rw [checkLimit_of_stateLimit_eq_none hlimit]
      refine ih.trans ?_
      simp [hlimit]
    | some limit =>
      by_cases hcount : limit < count
      · have hcheck : c.checkLimit count = .error (.stateLimit limit count) := by
          rw [checkLimit, hlimit]
          exact if_pos hcount
        rw [hcheck]
        simp [bind, Except.bind, hcount, eq_comm]
      · have hcheck : c.checkLimit count = .ok () := by
          rw [checkLimit_eq_ok_iff, hlimit]
          rintro _ ⟨⟩
          exact Nat.le_of_not_lt hcount
        have hfind : (count :: counts).find? (limit < ·) = counts.find? (limit < ·) :=
          List.find?_cons_of_neg (by simpa using hcount)
        rw [hcheck]
        refine ih.trans ?_
        simp only [hlimit, Option.some.injEq, exists_and_left, exists_eq_left', hfind]

theorem vetted_eq_error_iff : m.vetted source = .error e ↔ m.Refuses source e := by
  rw [vetted_eq_bind_demands, bind_eq_error_iff]
  constructor
  · rintro (hparse | ⟨r, hparse, hrest⟩)
    · exact .unread hparse
    · rcases bind_eq_error_iff.mp hrest with hcheck | ⟨_, _, hinstalled⟩
      · obtain ⟨limit, states, hlimit, hfirst, rfl⟩ :=
          Config.forM_checkLimit_eq_error_iff.mp hcheck
        exact .exceeded hparse hlimit hfirst
      · cases hinstalled
  · rintro (hparse | ⟨hparse, hlimit, hfirst⟩)
    · exact .inl hparse
    · exact .inr ⟨_, hparse, bind_eq_error_iff.mpr
        (.inl (Config.forM_checkLimit_eq_error_iff.mpr ⟨_, _, hlimit, hfirst, rfl⟩))⟩

/-- A text that is not added leaves the matcher as it was. -/
theorem append_eq_error_iff : m.append source = (.error e, left) ↔
    m.Refuses source e ∧ left = m := by
  rw [append_eq_error_iff_vetted, vetted_eq_error_iff]

theorem append_of_refuses (h : m.Refuses source e) : m.append source = (.error e, m) :=
  append_eq_error_iff.mpr ⟨h, rfl⟩

/-! ### Texts that are taken -/

/-- The tables of the first matcher are the beginnings of those of the second. -/
structure Extends (m later : Matcher) : Prop where
  name : later.name = m.name
  config : later.config = m.config
  states : m.states <+: later.states
  patterns : m.patterns <+: later.patterns
  signals : m.table.signals <+: later.table.signals

theorem Extends.refl (m : Matcher) : m.Extends m :=
  ⟨rfl, rfl, List.prefix_rfl, List.prefix_rfl, List.prefix_rfl⟩

theorem Extends.trans (h : m.Extends grown) (h' : grown.Extends last) : m.Extends last :=
  ⟨h'.name.trans h.name, h'.config.trans h.config, h.states.trans h'.states,
    h.patterns.trans h'.patterns, h.signals.trans h'.signals⟩

theorem extends_install (m : Matcher) (source : String) (R : Automaton) :
    m.Extends (m.install source R) :=
  ⟨rfl, rfl, prefix_states_install m source R, List.prefix_append _ _,
    (prefix_table_install m source R).map _⟩

theorem extends_append (h : m.append source = (.ok id, grown)) : m.Extends grown := by
  obtain ⟨r, _, _, _, _, rfl, _⟩ := append_eq_ok_iff.mp h
  exact extends_install m source _

/-- What a matcher has given out it keeps, whatever it is offered. -/
theorem extends_offerAll (m : Matcher) (sources : List String) :
    m.Extends (m.offerAll sources).1 := by
  refine offerAll_induction (motive := fun later _ ↦ m.Extends later) sources (.refl m) ?_
  intro later grown taken source id h happend
  exact h.trans (extends_append happend)

/-- The texts that were refused might as well not have been offered. -/
theorem offerAll_taken (m : Matcher) (sources : List String) :
    m.offerAll (m.offerAll sources).2 = m.offerAll sources := by
  refine offerAll_induction (motive := fun later taken ↦ m.offerAll taken = (later, taken))
    sources rfl ?_
  intro later grown taken source id h happend
  calc m.offerAll (taken ++ [source]) = offer (m.offerAll taken) source := by
        rw [offerAll, List.foldl_append]
        rfl
    _ = (grown, taken ++ [source]) := by rw [h, offer, happend]

theorem length_states_le_of_append {limit : Nat} (h : m.append source = (.ok id, grown))
    (hlimit : m.config.stateLimit = some limit) : grown.states.length ≤ limit := by
  obtain ⟨r, _, _, _, hcheck, rfl, _⟩ := append_eq_ok_iff.mp h
  rw [length_states_install]
  exact Config.checkLimit_eq_ok_iff.mp hcheck limit hlimit

/-! ### Lists of texts -/

/-- The text with the given number is the first that cannot be read, for the given reason. -/
def FirstUnread (depth : Nat) (sources : List String) (i : Nat) (cause : CompileError) : Prop :=
  (∃ source, sources[i]? = some source ∧ Regex.parseWithin depth source = .error cause) ∧
    ∀ j < i, ∀ source, sources[j]? = some source → ∃ r, Regex.parseWithin depth source = .ok r

theorem not_firstUnread_nil {depth i : Nat} {cause : CompileError} :
    ¬ FirstUnread depth [] i cause := by
  rintro ⟨⟨source, hsource, _⟩, _⟩
  cases hsource

theorem firstUnread_cons_zero {depth : Nat} {sources : List String} {cause : CompileError} :
    FirstUnread depth (source :: sources) 0 cause ↔
      Regex.parseWithin depth source = .error cause := by
  simp [FirstUnread]

theorem firstUnread_cons_succ {depth i : Nat} {sources : List String} {cause : CompileError} :
    FirstUnread depth (source :: sources) (i + 1) cause ↔
      (∃ r, Regex.parseWithin depth source = .ok r) ∧ FirstUnread depth sources i cause := by
  constructor
  · rintro ⟨hunread, hread⟩
    exact ⟨hread 0 (Nat.succ_pos i) source rfl, hunread,
      fun j hj ↦ hread (j + 1) (Nat.succ_lt_succ hj)⟩
  · rintro ⟨hfirst, hunread, hread⟩
    refine ⟨hunread, fun j hj s hs ↦ ?_⟩
    cases j with
    | zero =>
      obtain rfl := Option.some.inj hs
      exact hfirst
    | succ j => exact hread j (Nat.lt_of_succ_lt_succ hj) s hs

/-- Without a limit, what can be read is added. -/
theorem append_of_stateLimit_eq_none (h : m.config.stateLimit = none) {r : Regex}
    (hr : Regex.parseWithin m.config.depth source = .ok r) :
    m.append source = (.ok m.patterns.length, m.install source (m.config.compiled r)) :=
  append_eq_ok_iff.mpr ⟨r, hr, Config.checkLimit_of_stateLimit_eq_none h _,
    Config.checkLimit_of_stateLimit_eq_none h _, Config.checkLimit_of_stateLimit_eq_none h _,
    rfl, rfl⟩

theorem value_run_appendLogged (m : Matcher) (source : String) :
    (m.appendLogged source).run.value = (do
      let id ← (m.append source).1
      return ((m.append source).2, id)) := by
  simp only [appendLogged, Compiling.value_run_bind, Compiling.value_run_lift]
  rfl

theorem value_run_appendAll_cons (m : Matcher) (index : Nat) (source : String)
    (sources : List String) : (m.appendAll index (source :: sources)).run.value =
      (m.append source).1.mapError (.inPattern index) >>= fun _ ↦
        ((m.append source).2.appendAll (index + 1) sources).run.value := by
  have hvalue : (m.appendAll index (source :: sources)).run.value =
      (m.appendLogged source).run.value.mapError (.inPattern index) >>= fun answer ↦
        (answer.1.appendAll (index + 1) sources).run.value := by
    rw [appendAll, Compiling.value_run_bind]
    rfl
  rw [hvalue, value_run_appendLogged]
  cases (m.append source).1 with
  | error e => rfl
  | ok id => rfl

theorem value_run_appendAll_eq_error_iff (h : m.config.stateLimit = none) {index : Nat}
    {sources : List String} : (m.appendAll index sources).run.value = .error e ↔
      ∃ i cause, FirstUnread m.config.depth sources i cause ∧ e = .inPattern (index + i) cause := by
  induction sources generalizing m index with
  | nil =>
    refine ⟨fun herror ↦ (by cases herror), ?_⟩
    rintro ⟨i, cause, hfirst, _⟩
    exact absurd hfirst not_firstUnread_nil
  | cons source sources ih =>
    rw [value_run_appendAll_cons]
    cases hparse : Regex.parseWithin m.config.depth source with
    | error cause =>
      rw [append_of_refuses (.unread hparse)]
      constructor
      · intro herror
        exact ⟨0, cause, firstUnread_cons_zero.mpr hparse, (Except.error.inj herror).symm⟩
      · rintro ⟨i, cause', hfirst, rfl⟩
        cases i with
        | zero =>
          obtain rfl := Except.error.inj (hparse.symm.trans (firstUnread_cons_zero.mp hfirst))
          rfl
        | succ i =>
          obtain ⟨⟨r, hr⟩, _⟩ := firstUnread_cons_succ.mp hfirst
          rw [hparse] at hr
          cases hr
    | ok r =>
      rw [append_of_stateLimit_eq_none h hparse]
      -- the matcher that goes on has the configuration of the one before
      refine (ih (m := m.install source (m.config.compiled r)) h).trans ?_
      constructor
      · rintro ⟨i, cause, hfirst, rfl⟩
        refine ⟨i + 1, cause, firstUnread_cons_succ.mpr ⟨⟨r, hparse⟩, hfirst⟩, ?_⟩
        rw [Nat.add_assoc, Nat.add_comm 1 i]
      · rintro ⟨i, cause, hfirst, rfl⟩
        cases i with
        | zero =>
          have hunread := firstUnread_cons_zero.mp hfirst
          rw [hparse] at hunread
          cases hunread
        | succ i =>
          refine ⟨i, cause, (firstUnread_cons_succ.mp hfirst).2, ?_⟩
          rw [Nat.add_assoc, Nat.add_comm 1 i]

theorem compile_eq_error_iff {name : String} {patterns : List String} :
    compile name patterns = .error e ↔
      ∃ i cause, FirstUnread Regex.defaultDepth patterns i cause ∧ e = .inPattern i cause := by
  have hvalue : compile name patterns =
      ((new name .default).appendAll 0 patterns).run.value >>= fun m ↦ .ok m.program := by
    rw [compile, compileLogged, Compiling.value_run_bind]
    rfl
  have hwhole : ((new name .default).appendAll 0 patterns).run.value = .error e ↔
      ∃ i cause, FirstUnread Regex.defaultDepth patterns i cause ∧ e = .inPattern (0 + i) cause :=
    value_run_appendAll_eq_error_iff rfl
  simp only [Nat.zero_add] at hwhole
  rw [hvalue, bind_eq_error_iff]
  refine Iff.trans ⟨?_, .inl⟩ hwhole
  rintro (herror | ⟨m, _, hprogram⟩)
  · exact herror
  · cases hprogram

/-- Where some text cannot be read, there is a first. -/
theorem exists_firstUnread_iff {depth : Nat} {sources : List String} :
    (∃ i cause, FirstUnread depth sources i cause) ↔
      ∃ source ∈ sources, ∃ cause, Regex.parseWithin depth source = .error cause := by
  constructor
  · rintro ⟨i, cause, ⟨source, hsource, hparse⟩, _⟩
    exact ⟨source, List.mem_of_getElem? hsource, cause, hparse⟩
  · intro h
    induction sources with
    | nil =>
      obtain ⟨source, hsource, _⟩ := h
      cases hsource
    | cons first sources ih =>
      cases hfirst : Regex.parseWithin depth first with
      | error cause => exact ⟨0, cause, firstUnread_cons_zero.mpr hfirst⟩
      | ok r =>
        obtain ⟨source, hsource, cause, hparse⟩ := h
        rcases List.mem_cons.mp hsource with rfl | hrest
        · rw [hfirst] at hparse
          cases hparse
        · obtain ⟨i, cause, hi⟩ := ih ⟨source, hrest, cause, hparse⟩
          exact ⟨i + 1, cause, firstUnread_cons_succ.mpr ⟨⟨r, hfirst⟩, hi⟩⟩

/-! ### All or nothing -/

/-- A text is refused for the stated reasons and for no others, and then the matcher is left as it
was. A text that is taken gets the next number and is the one pattern that is added, behind tables
that stay as they were, within the limit on states. After any number of texts, the tables go on from
what was there, and the matcher is the one that was offered only the texts it took. A list of texts
compiles unless one of them cannot be read, and the error names the first such text. -/
theorem append_all_or_nothing :
    (∀ (m : Matcher) (taken : List String) (source : String),
      (∀ e, (m.append source).1 = .error e ↔ m.Refuses source e) ∧
      (∀ e left, m.append source = (.error e, left) →
        left = m ∧ offer (m, taken) source = (m, taken)) ∧
      ∀ id grown, m.append source = (.ok id, grown) →
        offer (m, taken) source = (grown, taken ++ [source]) ∧ id = m.patterns.length ∧
        m.Extends grown ∧ (∃ q, q.source = source ∧ grown.patterns = m.patterns ++ [q]) ∧
        ∀ limit, m.config.stateLimit = some limit → grown.states.length ≤ limit) ∧
    (∀ (m : Matcher) (sources : List String), m.Extends (m.offerAll sources).1 ∧
      m.offerAll (m.offerAll sources).2 = m.offerAll sources) ∧
    ∀ (name : String) (patterns : List String),
      ((∃ e, compile name patterns = .error e) ↔
        ∃ source ∈ patterns, ∃ cause,
          Regex.parseWithin Regex.defaultDepth source = .error cause) ∧
      ∀ e, compile name patterns = .error e ↔
        ∃ i cause, FirstUnread Regex.defaultDepth patterns i cause ∧ e = .inPattern i cause := by
  refine ⟨fun m taken source ↦ ⟨fun e ↦ ?_, fun e left h ↦ ?_, fun id grown h ↦ ?_⟩,
    fun m sources ↦ ⟨extends_offerAll m sources, offerAll_taken m sources⟩,
    fun name patterns ↦ ⟨?_, fun e ↦ compile_eq_error_iff⟩⟩
  · constructor
    · exact fun herror ↦ (append_eq_error_iff.mp (Prod.ext herror rfl)).1
    · exact fun hrefuses ↦ congrArg Prod.fst (append_of_refuses hrefuses)
  · obtain ⟨_, rfl⟩ := append_eq_error_iff.mp h
    exact ⟨rfl, by rw [offer, h]⟩
  · obtain ⟨r, _, _, _, _, hgrown, hid⟩ := append_eq_ok_iff.mp h
    exact ⟨by rw [offer, h], hid, extends_append h, ⟨_, rfl, congrArg patterns hgrown⟩,
      fun limit ↦ length_states_le_of_append h⟩
  · rw [← exists_firstUnread_iff]
    simp only [compile_eq_error_iff]
    constructor
    · rintro ⟨e, i, cause, hfirst, _⟩
      exact ⟨i, cause, hfirst⟩
    · rintro ⟨i, cause, hfirst⟩
      exact ⟨_, i, cause, hfirst, rfl⟩

/-- A matcher with room for four states and one letter in it has no room for two more letters, which
would make five, but still has it for one. -/
theorem append_all_or_nothing_full :
    ∃ m, (new "n" ⟨false, false, some 4, 3⟩).append "a" = (.ok 0, m) ∧
      m.append "bc" = (.error (.stateLimit 4 5), m) ∧ m.Refuses "bc" (.stateLimit 4 5) ∧
      (∃ grown, m.append "b" = (.ok 1, grown) ∧ m.Extends grown ∧ grown.states.length ≤ 4) ∧
      m.offerAll ["bc", "b", "(c"] = m.offerAll ["b"] := by
  obtain ⟨m, hm⟩ : ∃ m, ((new "n" ⟨false, false, some 4, 3⟩).append "a").2 = m := ⟨_, rfl⟩
  have hfirst : ((new "n" ⟨false, false, some 4, 3⟩).append "a").1 = .ok 0 := by decide +kernel
  have hlimit : m.config.stateLimit = some 4 := by subst hm; decide +kernel
  have hrefused : (m.append "bc").1 = .error (.stateLimit 4 5) := by subst hm; decide +kernel
  have htaken : (m.append "b").1 = .ok 1 := by subst hm; decide +kernel
  have hsome : (m.offerAll ["bc", "b", "(c"]).2 = ["b"] := by subst hm; decide +kernel
  obtain ⟨hone, hall, -⟩ := append_all_or_nothing
  obtain ⟨hrefuses, hleft, -⟩ := hone m [] "bc"
  obtain ⟨-, -, hextends, -, hwithin⟩ := (hone m [] "b").2.2 1 _ (Prod.ext htaken rfl)
  refine ⟨m, Prod.ext hfirst hm, Prod.ext hrefused (hleft _ _ (Prod.ext hrefused rfl)).1,
    (hrefuses _).mp hrefused, ⟨_, Prod.ext htaken rfl, hextends, hwithin 4 hlimit⟩, ?_⟩
  rw [← (hall m ["bc", "b", "(c"]).2, hsome]

end Matcher

end SignalRegex
