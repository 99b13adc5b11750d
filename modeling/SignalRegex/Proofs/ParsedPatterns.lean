import Mathlib.Tactic.SplitIfs
import SignalRegex.Pattern.Parser
import SignalRegex.Proofs.Fragments

/-!
A pattern that was read has no empty sequence (`proper_of_parseWithin`).

Every reader is built from a reader for what stands in parentheses, and passes on what holds of all
that reader yields.
-/

set_option autoImplicit false

namespace SignalRegex

/-- A computation of two steps succeeds where both do. -/
theorem exists_of_bind_eq_ok {ε α β : Type} {x : Except ε α} {f : α → Except ε β} {b : β}
    (h : x >>= f = .ok b) : ∃ a, x = .ok a ∧ f a = .ok b := by
  cases x with
  | error e => exact absurd h nofun
  | ok a => exact ⟨a, rfl, h⟩

/-- A computation of two steps fails where the first of them does that fails. -/
theorem bind_eq_error_iff {ε α β : Type} {x : Except ε α} {f : α → Except ε β} {e : ε} :
    x >>= f = .error e ↔ x = .error e ∨ ∃ a, x = .ok a ∧ f a = .error e := by
  cases x <;> simp [bind, Except.bind]

/-- A second step that cannot fail is not where a computation of two steps fails. -/
theorem eq_error_of_bind {ε α β : Type} {x : Except ε α} {f : α → Except ε β} {e : ε}
    (h : x >>= f = .error e) (hf : ∀ a, ∃ b, f a = .ok b) : x = .error e := by
  rcases bind_eq_error_iff.mp h with h | ⟨a, _, h⟩
  · exact h
  · obtain ⟨b, hb⟩ := hf a
    cases hb.symm.trans h

namespace Regex

/-- Every pattern that the reader answers has no empty sequence. -/
def YieldsProper (read : TokenReader Regex) : Prop :=
  ∀ ts p, read ts = .ok p → p.1.1.Proper

theorem Proper.of_quantified? {r q : Regex} {kind : Token.Kind} (hr : r.Proper)
    (h : r.quantified? kind = some q) : q.Proper := by
  unfold quantified? at h
  split at h
  · exact Option.some.inj h ▸ hr.star
  · exact Option.some.inj h ▸ hr.plus
  · exact Option.some.inj h ▸ hr.maybe
  · exact absurd h nofun

theorem Proper.of_quantify {r : Regex} {ts : List Token}
    {p : { p : Regex × List Token // p.2.length ≤ ts.length }} (hr : r.Proper)
    (h : quantify r ts = .ok p) : p.1.1.Proper := by
  cases ts with
  | nil =>
    obtain rfl := Except.ok.inj h
    exact hr
  | cons t rest =>
    obtain ⟨_, _, h⟩ := exists_of_bind_eq_ok h
    cases hq : r.quantified? t.kind with
    | none =>
      rw [hq] at h
      obtain rfl := Except.ok.inj h
      exact hr
    | some q =>
      rw [hq] at h
      obtain ⟨_, _, h⟩ := exists_of_bind_eq_ok h
      obtain rfl := Except.ok.inj h
      exact hr.of_quantified? hq

theorem yieldsProper_group {nested : Nat → TokenReader Regex}
    (hnested : ∀ n, YieldsProper (nested n)) (opened : Nat) :
    YieldsProper (group nested opened) := by
  intro ts p h
  unfold group at h
  split_ifs at h with hquestion
  · exact absurd h nofun
  · obtain ⟨⟨⟨r, rest⟩, hlt⟩, hr, h⟩ := exists_of_bind_eq_ok h
    obtain ⟨⟨⟨_, after⟩, hlt'⟩, _, h⟩ := exists_of_bind_eq_ok h
    obtain rfl := Except.ok.inj h
    have hproper := hnested opened ts _ hr
    exact hproper

theorem yieldsProper_atom (sourceEnd : Nat) {nested : Nat → TokenReader Regex}
    (hnested : ∀ n, YieldsProper (nested n)) : YieldsProper (atom sourceEnd nested) := by
  intro ts p h
  cases ts with
  | nil => exact absurd h nofun
  | cons t rest =>
    unfold atom at h
    dsimp only at h
    split at h
    · obtain ⟨⟨⟨r, after⟩, hlt⟩, hr, h⟩ := exists_of_bind_eq_ok h
      obtain rfl := Except.ok.inj h
      exact yieldsProper_group hnested _ rest _ hr
    · obtain ⟨⟨⟨s, after⟩, hlt⟩, _, h⟩ := exists_of_bind_eq_ok h
      obtain rfl := Except.ok.inj h
      exact .set s
    · obtain rfl := Except.ok.inj h
      exact .set _
    -- a token that starts no atom is an error
    iterate 7 exact absurd h nofun
    · obtain rfl := Except.ok.inj h
      exact .set _
    · obtain ⟨cp, _, h⟩ := exists_of_bind_eq_ok h
      obtain ⟨s, _, h⟩ := exists_of_bind_eq_ok h
      obtain rfl := Except.ok.inj h
      exact .set s

theorem yieldsProper_item (sourceEnd : Nat) {nested : Nat → TokenReader Regex}
    (hnested : ∀ n, YieldsProper (nested n)) : YieldsProper (item sourceEnd nested) := by
  intro ts p h
  obtain ⟨⟨⟨r, rest⟩, hlt⟩, hr, h⟩ := exists_of_bind_eq_ok h
  obtain ⟨⟨q, hle⟩, hq, h⟩ := exists_of_bind_eq_ok h
  obtain rfl := Except.ok.inj h
  have hatom : r.Proper := yieldsProper_atom sourceEnd hnested ts _ hr
  exact hatom.of_quantify hq

variable {read : TokenReader Regex}

theorem proper_of_items (hread : YieldsProper read) (ts : List Token)
    {p : { p : List Regex × List Token // p.2.length ≤ ts.length }} (h : items read ts = .ok p) :
    ∀ r ∈ p.1.1, r.Proper := by
  unfold items at h
  split_ifs at h with hends
  · obtain rfl := Except.ok.inj h
    exact fun r hr ↦ absurd hr List.not_mem_nil
  · obtain ⟨⟨⟨r, rest⟩, hlt⟩, hr, h⟩ := exists_of_bind_eq_ok h
    obtain ⟨⟨⟨rs, after⟩, hle⟩, hrs, h⟩ := exists_of_bind_eq_ok h
    obtain rfl := Except.ok.inj h
    have hfirst : r.Proper := hread ts _ hr
    exact List.forall_mem_cons.mpr ⟨hfirst, proper_of_items hread rest hrs⟩
termination_by ts.length

theorem proper_of_choices (hread : YieldsProper read) : ∀ (ts : List Token)
    {p : { p : List Regex × List Token // p.2.length ≤ ts.length }}, choices read ts = .ok p →
      ∀ r ∈ p.1.1, r.Proper
  | [], p, h => by
    unfold choices at h
    obtain rfl := Except.ok.inj h
    exact fun r hr ↦ absurd hr List.not_mem_nil
  | t :: rest, p, h => by
    unfold choices at h
    dsimp only at h
    split_ifs at h with hbar
    · obtain ⟨⟨⟨r, after⟩, hlt⟩, hr, h⟩ := exists_of_bind_eq_ok h
      obtain ⟨⟨⟨rs, last⟩, hle⟩, hrs, h⟩ := exists_of_bind_eq_ok h
      obtain rfl := Except.ok.inj h
      have hfirst : r.Proper := hread _ _ hr
      exact List.forall_mem_cons.mpr ⟨hfirst, proper_of_choices hread after hrs⟩
    · obtain rfl := Except.ok.inj h
      exact fun r hr ↦ absurd hr List.not_mem_nil
termination_by ts => ts.length
decreasing_by exact Nat.lt_succ_of_lt hlt

theorem proper_ofSequence {r : Regex} {rs : List Regex} (h : ∀ s ∈ r :: rs, s.Proper) :
    (ofSequence (r :: rs)).Proper := by
  cases rs with
  | nil => exact h r List.mem_cons_self
  | cons s rs => exact .concat (List.cons_ne_nil _ _) h

theorem proper_ofChoices {r : Regex} {rs : List Regex} (h : ∀ s ∈ r :: rs, s.Proper) :
    (ofChoices (r :: rs)).Proper := by
  cases rs with
  | nil => exact h r List.mem_cons_self
  | cons s rs => exact .alternate h

theorem yieldsProper_sequence (sourceEnd : Nat) (hread : YieldsProper read) :
    YieldsProper (sequence sourceEnd read) := by
  intro ts p h
  unfold sequence at h
  split_ifs at h with hends
  · exact absurd h nofun
  · obtain ⟨⟨⟨r, rest⟩, hlt⟩, hr, h⟩ := exists_of_bind_eq_ok h
    obtain ⟨⟨⟨rs, after⟩, hle⟩, hrs, h⟩ := exists_of_bind_eq_ok h
    obtain rfl := Except.ok.inj h
    have hfirst : r.Proper := hread ts _ hr
    exact proper_ofSequence (List.forall_mem_cons.mpr ⟨hfirst, proper_of_items hread rest hrs⟩)

theorem yieldsProper_alternation (sourceEnd : Nat) (hread : YieldsProper read) :
    YieldsProper (alternation sourceEnd read) := by
  intro ts p h
  have hsequence := yieldsProper_sequence sourceEnd hread
  obtain ⟨⟨⟨r, rest⟩, hlt⟩, hr, h⟩ := exists_of_bind_eq_ok h
  obtain ⟨⟨⟨rs, after⟩, hle⟩, hrs, h⟩ := exists_of_bind_eq_ok h
  obtain rfl := Except.ok.inj h
  have hfirst : r.Proper := hsequence ts _ hr
  exact proper_ofChoices (List.forall_mem_cons.mpr ⟨hfirst, proper_of_choices hsequence rest hrs⟩)

theorem yieldsProper_nestedWithin (sourceEnd depth : Nat) :
    YieldsProper (nestedWithin sourceEnd depth) := by
  induction depth with
  | zero =>
    refine yieldsProper_alternation sourceEnd (yieldsProper_item sourceEnd fun n ts p h ↦ ?_)
    exact absurd h nofun
  | succ depth ih =>
    exact yieldsProper_alternation sourceEnd (yieldsProper_item sourceEnd fun _ ↦ ih)

/-- A pattern that was read has no empty sequence. -/
theorem proper_of_parseWithin {depth : Nat} {source : String} {r : Regex}
    (h : parseWithin depth source = .ok r) : r.Proper := by
  obtain ⟨⟨⟨s, rest⟩, hlt⟩, hs, h⟩ := exists_of_bind_eq_ok h
  have hproper : s.Proper := yieldsProper_nestedWithin _ _ _ _ hs
  cases rest with
  | nil => exact Except.ok.inj h ▸ hproper
  | cons t rest =>
    dsimp only at h
    split_ifs at h

end Regex

end SignalRegex
