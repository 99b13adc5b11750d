import SignalRegex.Matcher

/-!
Adding a pattern in place, step by step.

A computation on a matcher gives an answer and leaves a matcher, also where it fails
(`Growing.outcome`). Each step of `Matcher.grow` has one lemma that says both. Together they say
that whatever can fail comes before whatever changes the matcher: a pattern is vetted against the
matcher as it is (`Matcher.vetted`), and only then do the tables grow (`Matcher.append_eq_vetted`).
-/

set_option autoImplicit false

namespace SignalRegex

/-! ### Outcomes -/

namespace Growing

variable {α β : Type} (m : Matcher)

@[simp] theorem outcome_pure (a : α) : outcome (pure a) m = (.ok a, m) :=
  rfl

@[simp] theorem outcome_get : outcome get m = (.ok m, m) :=
  rfl

@[simp] theorem outcome_modify (f : Matcher → Matcher) : outcome (modify f) m = (.ok (), f m) :=
  rfl

@[simp] theorem outcome_write (level : LogLevel) (message : String) :
    outcome (liftM (Logged.write level message)) m = (.ok (), m) :=
  rfl

/-- Compiling leaves the matcher alone. -/
theorem outcome_compiling {x : Compiling α} {answer : Except CompileError α}
    (h : x.run.value = answer) : outcome (liftM x) m = (answer, m) :=
  congrArg (·, m) h

theorem outcome_except (x : Except CompileError α) : outcome (liftM x) m = (x, m) :=
  rfl

variable {m} {left : Matcher} {x : Growing α}

theorem outcome_bind_of_ok {a : α} (h : x.outcome m = (.ok a, left)) (f : α → Growing β) :
    outcome (x >>= f) m = (f a).outcome left := by
  change (ExceptT.bindCont f (x.outcome m).1 (x.outcome m).2).value = _
  rw [h]
  rfl

/-- What comes after a failure does not happen, and what came before it is not taken back. -/
theorem outcome_bind_of_error {e : CompileError} (h : x.outcome m = (.error e, left))
    (f : α → Growing β) : outcome (x >>= f) m = (.error e, left) := by
  change (ExceptT.bindCont f (x.outcome m).1 (x.outcome m).2).value = _
  rw [h]
  rfl

end Growing

namespace Matcher

/-! ### States and labels -/

/-- The edges into a state and the table with their labels. -/
def incoming (offset : Nat) (t : SignalTable) :
    List (Nat × CharSet) → SignalTable × List Program.Edge
  | [] => (t, [])
  | (source, label) :: rest =>
    let (t, condition) := t.intern label
    let (t, edges) := incoming offset t rest
    (t, ⟨offset + source, condition⟩ :: edges)

/-- The listed states of a reversed automaton as states of the program, numbered from `offset`
on. -/
def rows (offset : Nat) (R : Automaton) (t : SignalTable) :
    List Nat → SignalTable × List Program.State
  | [] => (t, [])
  | i :: rest =>
    let (t, edges) := incoming offset t (R.state i).real.toList
    let (t, states) := rows offset R t rest
    (t, ⟨offset + i, decide (i ∈ R.finals), edges⟩ :: states)

/-- The matcher with one more pattern, given the reversed automaton of the pattern. -/
def install (m : Matcher) (source : String) (R : Automaton) : Matcher :=
  let offset := m.states.length
  let (table, states) := rows offset R m.table (List.range R.size)
  { m with
    states := m.states ++ states
    patterns := m.patterns ++ [⟨source, R.initial.toList.map (offset + ·)⟩]
    table }

open Growing

theorem outcome_internLabel (label : CharSet) (m : Matcher) :
    (internLabel label).outcome m =
      (.ok (m.table.intern label).2, { m with table := (m.table.intern label).1 }) :=
  rfl

theorem outcome_edgesInto (offset : Nat) (edges : List (Nat × CharSet)) (m : Matcher) :
    (edgesInto offset edges).outcome m =
      (.ok (incoming offset m.table edges).2,
        { m with table := (incoming offset m.table edges).1 }) := by
  unfold edgesInto
  induction edges generalizing m with
  | nil => rfl
  | cons edge edges ih =>
    rw [List.mapM_cons, outcome_bind_of_ok (outcome_bind_of_ok (outcome_internLabel edge.2 m) _),
      outcome_bind_of_ok (ih _)]
    rfl

theorem outcome_growState (offset : Nat) (R : Automaton) (i : Nat) (m : Matcher) :
    (growState offset R i).outcome m =
      (.ok (), { m with
        states := m.states ++ (rows offset R m.table [i]).2
        table := (rows offset R m.table [i]).1 }) := by
  unfold growState
  rw [outcome_bind_of_ok (outcome_edgesInto ..), outcome_modify]
  rfl

theorem outcome_forM_growState (offset : Nat) (R : Automaton) (ids : List Nat) (m : Matcher) :
    (ids.forM (growState offset R)).outcome m =
      (.ok (), { m with
        states := m.states ++ (rows offset R m.table ids).2
        table := (rows offset R m.table ids).1 }) := by
  induction ids generalizing m with
  | nil => simp [rows]
  | cons i ids ih =>
    change (growState offset R i >>= fun _ ↦ ids.forM (growState offset R)).outcome m = _
    rw [outcome_bind_of_ok (outcome_growState offset R i m), ih]
    simp [rows]

/-! ### A whole pattern -/

/-- The reversed automaton of a pattern, unless the pattern cannot be added to the matcher. -/
def vetted (m : Matcher) (source : String) : Except CompileError Automaton := do
  let N ← (m.config.automaton source).run.value
  m.config.checkLimit (m.states.length + N.reverse.size)
  return N.reverse

/-- A pattern is installed when it is vetted, and otherwise the matcher stays as it is. -/
theorem append_eq_vetted (m : Matcher) (source : String) :
    m.append source = match m.vetted source with
      | .error e => (.error e, m)
      | .ok R => (.ok m.patterns.length, m.install source R) := by
  unfold append grow
  rw [outcome_bind_of_ok (outcome_get m)]
  cases hN : (m.config.automaton source).run.value with
  | error e =>
    have hvetted : m.vetted source = .error e := by rw [vetted, hN]; rfl
    rw [hvetted, outcome_bind_of_error (outcome_compiling m hN)]
  | ok N =>
    have hvetted : m.vetted source =
        (m.config.checkLimit (m.states.length + N.reverse.size)).map fun _ ↦ N.reverse := by
      rw [vetted, hN]
      rfl
    rw [hvetted, outcome_bind_of_ok (outcome_compiling m hN), outcome_bind_of_ok (outcome_get m),
      outcome_bind_of_ok (outcome_get m)]
    cases m.config.checkLimit (m.states.length + N.reverse.size) with
    | error e => exact outcome_bind_of_error (outcome_except m _) _
    | ok checked =>
      -- from here on nothing fails
      rw [outcome_bind_of_ok (outcome_except m _), outcome_bind_of_ok (outcome_get m),
        outcome_bind_of_ok (outcome_forM_growState ..), outcome_bind_of_ok (outcome_modify ..),
        outcome_bind_of_ok (outcome_get _), outcome_bind_of_ok (outcome_write ..), outcome_pure]
      simp [install, Except.map]

variable {m grown left : Matcher} {source : String} {id : Nat} {e : CompileError}

theorem append_eq_ok_iff_vetted : m.append source = (.ok id, grown) ↔
    ∃ R, m.vetted source = .ok R ∧ grown = m.install source R ∧ id = m.patterns.length := by
  rw [append_eq_vetted]
  cases m.vetted source with
  | error e => simp
  | ok R => simp [eq_comm, and_comm]

theorem append_eq_error_iff_vetted : m.append source = (.error e, left) ↔
    m.vetted source = .error e ∧ left = m := by
  rw [append_eq_vetted]
  cases m.vetted source with
  | error e => simp [eq_comm]
  | ok R => simp

end Matcher

end SignalRegex
