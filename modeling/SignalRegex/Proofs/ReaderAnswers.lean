import Mathlib.Data.List.Forall2
import Mathlib.Data.List.TakeWhile
import SignalRegex.Proofs.ParsedPatterns

/-!
What each reader of the pattern language answers, as one equivalence for each reader.

A reader answers a value together with a proof that tokens were taken; `Gives` leaves that proof
out. A bracketed class is read from its own tokens alone: what follows the closing bracket changes
nothing (`gives_bracketed_iff_exists`).
-/

set_option autoImplicit false

namespace SignalRegex

section Answers

variable {ε α β : Type} {P : α → Prop} {Q : β → Prop}

/-- The computation succeeds with the given value, whatever proof comes with it. -/
def Gives (x : Except ε (Subtype P)) (a : α) : Prop :=
  ∃ h, x = .ok ⟨a, h⟩

theorem gives_ok {a b : α} {h : P a} : Gives (.ok ⟨a, h⟩ : Except ε (Subtype P)) b ↔ b = a := by
  constructor
  · rintro ⟨_, heq⟩
    exact (congrArg Subtype.val (Except.ok.inj heq)).symm
  · rintro rfl
    exact ⟨h, rfl⟩

theorem not_gives_error {e : ε} {a : α} : ¬ Gives (.error e : Except ε (Subtype P)) a := by
  rintro ⟨_, heq⟩
  cases heq

theorem gives_bind {γ : Type} {x : Except ε γ} {f : γ → Except ε (Subtype Q)} {b : β} :
    Gives (x >>= f) b ↔ ∃ c, x = .ok c ∧ Gives (f c) b := by
  constructor
  · rintro ⟨h, heq⟩
    obtain ⟨c, hc, hf⟩ := exists_of_bind_eq_ok heq
    exact ⟨c, hc, h, hf⟩
  · rintro ⟨c, rfl, hf⟩
    exact hf

/-- Two steps of which the first answers with a proof of its own. -/
theorem gives_bind_subtype {x : Except ε (Subtype P)} {f : Subtype P → Except ε (Subtype Q)}
    {b : β} : Gives (x >>= f) b ↔ ∃ a h, x = .ok ⟨a, h⟩ ∧ Gives (f ⟨a, h⟩) b := by
  rw [gives_bind]
  constructor
  · rintro ⟨⟨a, h⟩, hx, hf⟩
    exact ⟨a, h, hx, hf⟩
  · rintro ⟨a, h, hx, hf⟩
    exact ⟨⟨a, h⟩, hx, hf⟩

/-- A check in front of a computation. -/
theorem gives_check {x : Except ε Unit} {f : Unit → Except ε (Subtype Q)} {b : β} :
    Gives (x >>= f) b ↔ x = .ok () ∧ Gives (f ()) b := by
  rw [gives_bind]
  constructor
  · rintro ⟨_, hx, hf⟩
    exact ⟨hx, hf⟩
  · rintro ⟨hx, hf⟩
    exact ⟨(), hx, hf⟩

/-- A last step that keeps the value and answers with another proof. -/
theorem gives_keep {P' : α → Prop} {x : Except ε (Subtype P)}
    {f : Subtype P → Except ε (Subtype P')} {a : α} (hf : ∀ y, ∃ h, f y = .ok ⟨y.1, h⟩) :
    Gives (x >>= f) a ↔ Gives x a := by
  refine gives_bind_subtype.trans ⟨?_, ?_⟩
  · rintro ⟨b, h, hx, hb⟩
    obtain ⟨_, heq⟩ := hf ⟨b, h⟩
    obtain rfl := gives_ok.mp (heq ▸ hb)
    exact ⟨h, hx⟩
  · rintro ⟨h, hx⟩
    exact ⟨a, h, hx, hf ⟨a, h⟩⟩

theorem Gives.unique {x : Except ε (Subtype P)} {a b : α} (ha : Gives x a) (hb : Gives x b) :
    a = b := by
  obtain ⟨_, ha⟩ := ha
  exact (gives_ok.mp (ha ▸ hb)).symm

theorem exists_error_iff {x : Except ε (Subtype P)} :
    (∃ e, x = .error e) ↔ ∀ a, ¬ Gives x a := by
  constructor
  · rintro ⟨e, rfl⟩ a
    exact not_gives_error
  · intro hnone
    cases x with
    | error e => exact ⟨e, rfl⟩
    | ok a => exact absurd ⟨a.2, rfl⟩ (hnone a.1)

/-- A reader that takes a token had one. -/
theorem Gives.ne_nil {ts rest : List Token} {x : Except ε (Parsed α ts)} {a : α}
    (h : Gives x (a, rest)) : ts ≠ [] := by
  obtain ⟨hlt, _⟩ := h
  exact List.ne_nil_of_length_pos (Nat.zero_lt_of_lt hlt)

end Answers

/-! ### Quantifiers -/

/-- The three ways to repeat an atom. -/
inductive Quantifier where
  | star
  | plus
  | question
deriving DecidableEq, Repr

namespace Quantifier

def kind : Quantifier → Token.Kind
  | star => .star
  | plus => .plus
  | question => .question

def apply : Quantifier → Regex → Regex
  | star => .star
  | plus => .plus
  | question => .maybe

theorem kind_injective {q q' : Quantifier} (h : q.kind = q'.kind) : q = q' := by
  cases q <;> cases q' <;> simp_all [kind]

end Quantifier

namespace Regex

variable {ts rest after : List Token} {r q : Regex}

/-- The next token is a quantifier. -/
def StartsQuantifier (ts : List Token) : Prop :=
  ∃ t ∈ ts.head?, ∃ q : Quantifier, t.kind = q.kind

/-- The next token opens a bound on repetition. -/
def StartsBound (ts : List Token) : Prop :=
  startsWith .braceOpen ts = true ∧ isRepetition (ts.flatMap Token.text) = true

@[simp] theorem startsWith_cons {kind : Token.Kind} {t : Token} :
    startsWith kind (t :: ts) = true ↔ t.kind = kind := by
  simp [startsWith]

@[simp] theorem not_startsWith_nil {kind : Token.Kind} : ¬ startsWith kind [] = true := by
  simp [startsWith]

theorem startsWith_append {kind : Token.Kind} {us : List Token} (h : ts ≠ []) :
    startsWith kind (ts ++ us) = startsWith kind ts := by
  rw [startsWith, startsWith, List.head?_append_of_ne_nil _ h]

@[simp] theorem startsQuantifier_cons {t : Token} :
    StartsQuantifier (t :: ts) ↔ ∃ q : Quantifier, t.kind = q.kind := by
  simp [StartsQuantifier]

@[simp] theorem not_startsQuantifier_nil : ¬ StartsQuantifier [] := by
  simp [StartsQuantifier]

@[simp] theorem not_startsBound_nil : ¬ StartsBound [] := by
  simp [StartsBound]

theorem rejectRepetition_eq_ok_iff : rejectRepetition ts = .ok () ↔ ¬ StartsBound ts := by
  cases ts with
  | nil => simp [rejectRepetition]
  | cons t ts =>
    unfold rejectRepetition StartsBound
    dsimp only
    rw [startsWith_cons]
    split_ifs with h
    · simp only [h, and_self, not_true_eq_false]
    · simp only [h, not_false_eq_true]

theorem quantified?_eq_some_iff {kind : Token.Kind} :
    r.quantified? kind = some q ↔ ∃ n : Quantifier, kind = n.kind ∧ q = n.apply r := by
  constructor
  · intro h
    unfold quantified? at h
    split at h
    · exact ⟨.star, rfl, (Option.some.inj h).symm⟩
    · exact ⟨.plus, rfl, (Option.some.inj h).symm⟩
    · exact ⟨.question, rfl, (Option.some.inj h).symm⟩
    · cases h
  · rintro ⟨n, rfl, rfl⟩
    cases n <;> rfl

theorem quantified?_eq_none_iff {kind : Token.Kind} :
    r.quantified? kind = none ↔ ¬ ∃ n : Quantifier, kind = n.kind := by
  rw [Option.eq_none_iff_forall_ne_some]
  constructor
  · rintro h ⟨n, hn⟩
    exact h (n.apply r) (quantified?_eq_some_iff.mpr ⟨n, hn, rfl⟩)
  · intro h q hq
    obtain ⟨n, hn, _⟩ := quantified?_eq_some_iff.mp hq
    exact h ⟨n, hn⟩

theorem rejectSecondQuantifier_eq_ok_iff :
    rejectSecondQuantifier ts = .ok () ↔ ¬ StartsQuantifier ts ∧ ¬ StartsBound ts := by
  cases ts with
  | nil => simp [rejectSecondQuantifier]
  | cons t ts =>
    unfold rejectSecondQuantifier
    rw [startsQuantifier_cons]
    dsimp only
    split
    · rename_i h
      simp only [reduceCtorEq, false_iff, not_and]
      exact fun hnone ↦ absurd ⟨.question, h⟩ hnone
    · rename_i h
      simp only [reduceCtorEq, false_iff, not_and]
      exact fun hnone ↦ absurd ⟨.star, h⟩ hnone
    · rename_i h
      simp only [reduceCtorEq, false_iff, not_and]
      exact fun hnone ↦ absurd ⟨.plus, h⟩ hnone
    · rename_i hquestion hstar hplus
      rw [rejectRepetition_eq_ok_iff, iff_and_self]
      rintro _ ⟨n, hn⟩
      cases n with
      | star => exact hstar hn
      | plus => exact hplus hn
      | question => exact hquestion hn

/-- An item takes the quantifier behind it if there is one, and only one. -/
theorem gives_quantify : Gives (quantify r ts) (q, rest) ↔ ¬ StartsBound ts ∧
    ((q = r ∧ rest = ts ∧ ¬ StartsQuantifier ts) ∨
      ∃ t, ∃ n : Quantifier, ts = t :: rest ∧ t.kind = n.kind ∧ q = n.apply r ∧
        ¬ StartsQuantifier rest ∧ ¬ StartsBound rest) := by
  cases ts with
  | nil => simp [quantify, gives_ok]
  | cons t ts =>
    unfold quantify
    rw [gives_check, rejectRepetition_eq_ok_iff, startsQuantifier_cons]
    refine and_congr_right fun _ ↦ ?_
    cases hq : r.quantified? t.kind with
    | none =>
      have hnone := quantified?_eq_none_iff.mp hq
      refine gives_ok.trans ?_
      simp only [Prod.mk.injEq]
      constructor
      · rintro ⟨rfl, rfl⟩
        exact Or.inl ⟨rfl, rfl, hnone⟩
      · rintro (⟨rfl, rfl, _⟩ | ⟨u, n, heq, hn, _⟩)
        · exact ⟨rfl, rfl⟩
        · exact absurd ⟨n, (List.cons.inj heq).1 ▸ hn⟩ hnone
    | some p =>
      obtain ⟨n, hn, rfl⟩ := quantified?_eq_some_iff.mp hq
      refine gives_check.trans ?_
      rw [rejectSecondQuantifier_eq_ok_iff]
      refine (and_congr_right fun _ ↦ gives_ok).trans ?_
      simp only [Prod.mk.injEq]
      constructor
      · rintro ⟨⟨hquantifier, hbound⟩, rfl, rfl⟩
        exact Or.inr ⟨t, n, rfl, hn, rfl, hquantifier, hbound⟩
      · rintro (⟨_, _, hnone⟩ | ⟨u, m, heq, hm, rfl, hquantifier, hbound⟩)
        · exact absurd ⟨n, hn⟩ hnone
        · obtain ⟨rfl, rfl⟩ := List.cons.inj heq
          obtain rfl := Quantifier.kind_injective (hn.symm.trans hm)
          exact ⟨⟨hquantifier, hbound⟩, rfl, rfl⟩

end Regex

/-! ### Atoms -/

/-- The token is an atom by itself and stands for one code point of the set: a dot, a shorthand, a
character that has no meaning of its own outside brackets, or a complete escape of a code point. -/
def Token.Leaf (t : Token) (s : CharSet) : Prop :=
  match t.kind with
  | .dot => s = .full
  | .classEscape shorthand => s = shorthand.charset
  | .char | .bracketClose | .braceOpen | .braceClose | .dash =>
    CharSet.single t.first.toNat = .ok s
  | .hexEscape | .unicodeEscape =>
    ∃ cp < alphabetSize, Text.readHex? (t.more.drop 1) = some cp ∧ CharSet.single cp = .ok s
  | .escape => ∃ c ∈ t.more.head?, CharSet.single (escapedCodePoint c) = .ok s
  | _ => False

namespace Regex

variable {ts rest after : List Token} {t : Token} {r : Regex} {s : CharSet} {sourceEnd opened : Nat}
  {nested : Nat → TokenReader Regex}

theorem gives_closeGroup {u : Unit} : Gives (closeGroup opened ts) (u, after) ↔
    ∃ t, t.kind = .parenClose ∧ ts = t :: after := by
  cases ts with
  | nil => simp [closeGroup, not_gives_error]
  | cons t ts =>
    unfold closeGroup
    dsimp only
    split_ifs with hkind
    · simp [gives_ok, hkind, eq_comm]
    · simp [not_gives_error, hkind]

/-- Parentheses hold what the inner reader takes, up to the closing one. -/
theorem gives_group : Gives (group nested opened ts) (r, after) ↔
    ¬ startsWith .question ts = true ∧
      ∃ t, t.kind = .parenClose ∧ Gives (nested opened ts) (r, t :: after) := by
  unfold group
  split_ifs with hquestion
  · exact iff_of_false not_gives_error fun h ↦ h.1 hquestion
  · refine gives_bind_subtype.trans ⟨?_, ?_⟩
    · rintro ⟨⟨r, rest⟩, hlt, hnested, hclose⟩
      obtain ⟨⟨u, last⟩, hlt', hclose, hanswer⟩ := gives_bind_subtype.mp hclose
      obtain ⟨rfl, rfl⟩ := Prod.mk.inj (gives_ok.mp hanswer)
      obtain ⟨t, hkind, rfl⟩ := gives_closeGroup.mp ⟨hlt', hclose⟩
      exact ⟨hquestion, t, hkind, hlt, hnested⟩
    · rintro ⟨_, t, hkind, hlt, hnested⟩
      obtain ⟨hlt', hclose⟩ := gives_closeGroup (u := ()).mpr ⟨t, hkind, rfl⟩
      exact ⟨_, hlt, hnested, gives_bind_subtype.mpr ⟨_, hlt', hclose, gives_ok.mpr rfl⟩⟩

theorem liftRange_eq_ok_iff {α : Type} {x : Except RangeError α} {a : α} :
    ClassItem.liftRange x = .ok a ↔ x = .ok a := by
  cases x with
  | error e => simp [ClassItem.liftRange, Except.mapError]
  | ok b => simp [ClassItem.liftRange, Except.mapError]

theorem gives_literal : Gives (do
      let cp ← t.literal
      let s ← ClassItem.liftRange (CharSet.single cp)
      return ⟨(set s, rest), Nat.lt_succ_self _⟩ : Except CompileError (Parsed Regex (t :: rest)))
      (r, after) ↔ ∃ s, (∃ cp, t.literal = .ok cp ∧ CharSet.single cp = .ok s) ∧
        r = .set s ∧ after = rest := by
  refine gives_bind.trans ⟨?_, ?_⟩
  · rintro ⟨cp, hcp, h⟩
    obtain ⟨s, hs, h⟩ := gives_bind.mp h
    exact ⟨s, ⟨cp, hcp, liftRange_eq_ok_iff.mp hs⟩, Prod.mk.inj (gives_ok.mp h)⟩
  · rintro ⟨s, ⟨cp, hcp, hs⟩, rfl, rfl⟩
    exact ⟨cp, hcp, gives_bind.mpr ⟨s, liftRange_eq_ok_iff.mpr hs, gives_ok.mpr rfl⟩⟩

theorem literal_of_readHex? (h : t.kind = .hexEscape ∨ t.kind = .unicodeEscape) {cp : Nat}
    (hread : Text.readHex? (t.more.drop 1) = some cp) : t.literal = if cp < alphabetSize then .ok cp
      else .error (.malformed t.start .codePointOutOfRange) := by
  rcases h with h | h <;> simp only [Token.literal, h, hread]

/-- The number of a code point is a literal inside the alphabet. -/
theorem literal_number (h : t.kind = .hexEscape ∨ t.kind = .unicodeEscape) {cp : Nat} :
    t.literal = .ok cp ↔ cp < alphabetSize ∧ Text.readHex? (t.more.drop 1) = some cp := by
  cases hread : Text.readHex? (t.more.drop 1) with
  | none => rcases h with h | h <;> simp only [Token.literal, h, hread] <;> simp
  | some n =>
    rw [literal_of_readHex? h hread]
    split_ifs with hlt
    · simp only [Except.ok.injEq, Option.some.injEq]
      exact ⟨fun heq ↦ ⟨heq ▸ hlt, heq⟩, fun h ↦ h.2⟩
    · simp only [Option.some.injEq, false_iff, not_and]
      exact fun hcp heq ↦ hlt (heq ▸ hcp)

/-- An atom is a pattern in parentheses, a class, or a token by itself. -/
theorem gives_atom : Gives (atom sourceEnd nested (t :: rest)) (r, after) ↔
    (t.kind = .parenOpen ∧ Gives (group nested t.start rest) (r, after)) ∨
      (t.kind = .bracketOpen ∧ ∃ s, r = .set s ∧ Gives (bracketed t.start rest) (s, after)) ∨
      (∃ s, t.Leaf s ∧ r = .set s ∧ after = rest) := by
  cases hkind : t.kind with
  | parenOpen =>
    simp only [atom, Token.Leaf, hkind, reduceCtorEq, true_and, false_and, or_false, exists_false]
    exact gives_keep fun _ ↦ ⟨_, rfl⟩
  | bracketOpen =>
    simp only [atom, Token.Leaf, hkind, reduceCtorEq, true_and, false_and, false_or, or_false,
      exists_false]
    refine gives_bind_subtype.trans ⟨?_, ?_⟩
    · rintro ⟨⟨s, last⟩, hlt, hclass, hanswer⟩
      obtain ⟨rfl, rfl⟩ := Prod.mk.inj (gives_ok.mp hanswer)
      exact ⟨s, rfl, hlt, hclass⟩
    · rintro ⟨s, rfl, hlt, hclass⟩
      exact ⟨_, hlt, hclass, gives_ok.mpr rfl⟩
  | dot => simp [atom, Token.Leaf, hkind, gives_ok]
  | classEscape shorthand => simp [atom, Token.Leaf, hkind, gives_ok]
  | caret | dollar | star | plus | question | pipe | parenClose =>
    simp [atom, Token.Leaf, hkind, not_gives_error]
  | bracketClose | braceOpen | braceClose | dash | char =>
    simp only [atom, hkind]
    refine gives_literal.trans ?_
    simp [Token.literal, Token.Leaf, hkind]
  | hexEscape | unicodeEscape =>
    simp only [atom, hkind]
    refine gives_literal.trans ?_
    simp [literal_number, Token.Leaf, hkind, and_assoc]
  | escape =>
    simp only [atom, hkind]
    refine gives_literal.trans ?_
    cases hmore : t.more <;> simp [Token.literal, Token.Leaf, hkind, hmore]
  | incomplete =>
    simp only [atom, hkind]
    refine gives_literal.trans ?_
    simp [Token.literal, Token.Leaf, hkind]

/-! ### Items, sequences and choices -/

theorem gives_item {q : Regex} : Gives (item sourceEnd nested ts) (q, after) ↔
    ∃ r rest, Gives (atom sourceEnd nested ts) (r, rest) ∧ Gives (quantify r rest) (q, after) := by
  refine gives_bind_subtype.trans ⟨?_, ?_⟩
  · rintro ⟨⟨r, rest⟩, hlt, hatom, hquantify⟩
    exact ⟨r, rest, ⟨hlt, hatom⟩, (gives_keep fun _ ↦ ⟨_, rfl⟩).mp hquantify⟩
  · rintro ⟨r, rest, ⟨hlt, hatom⟩, hquantify⟩
    exact ⟨(r, rest), hlt, hatom, (gives_keep fun _ ↦ ⟨_, rfl⟩).mpr hquantify⟩

variable {read : TokenReader Regex} {rs : List Regex}

theorem gives_items_nil :
    Gives (items read ts) ([], after) ↔ sequenceEnds ts = true ∧ after = ts := by
  unfold items
  split_ifs with hends
  · exact gives_ok.trans (by simp [hends])
  · refine iff_of_false (fun h ↦ ?_) fun h ↦ hends h.1
    obtain ⟨⟨r, rest⟩, _, _, h⟩ := gives_bind_subtype.mp h
    obtain ⟨⟨rs, last⟩, _, _, h⟩ := gives_bind_subtype.mp h
    cases (Prod.mk.inj (gives_ok.mp h)).1

theorem gives_items_cons : Gives (items read ts) (r :: rs, after) ↔
    ¬ sequenceEnds ts = true ∧
      ∃ rest, Gives (read ts) (r, rest) ∧ Gives (items read rest) (rs, after) := by
  rw [items]
  split_ifs with hends
  · refine iff_of_false (fun h ↦ ?_) fun h ↦ h.1 hends
    cases (Prod.mk.inj (gives_ok.mp h)).1
  · rw [and_iff_right hends]
    refine gives_bind_subtype.trans ⟨?_, ?_⟩
    · rintro ⟨⟨s, rest⟩, hlt, hread, h⟩
      obtain ⟨⟨ss, last⟩, hle, hitems, h⟩ := gives_bind_subtype.mp h
      obtain ⟨heq, rfl⟩ := Prod.mk.inj (gives_ok.mp h)
      obtain ⟨rfl, rfl⟩ := List.cons.inj heq
      exact ⟨rest, ⟨hlt, hread⟩, hle, hitems⟩
    · rintro ⟨rest, ⟨hlt, hread⟩, hle, hitems⟩
      exact ⟨_, hlt, hread, gives_bind_subtype.mpr ⟨_, hle, hitems, gives_ok.mpr rfl⟩⟩

/-- A sequence is what the loop over its items reads, unless that is nothing. -/
theorem gives_sequence : Gives (sequence sourceEnd read ts) (r, after) ↔
    ∃ s ss, r = ofSequence (s :: ss) ∧ Gives (items read ts) (s :: ss, after) := by
  simp only [gives_items_cons]
  unfold sequence
  split_ifs with hends
  · refine iff_of_false not_gives_error ?_
    rintro ⟨s, ss, _, hnot, _⟩
    exact hnot hends
  · refine gives_bind_subtype.trans ⟨?_, ?_⟩
    · rintro ⟨⟨s, rest⟩, hlt, hread, h⟩
      obtain ⟨⟨ss, last⟩, hle, hitems, h⟩ := gives_bind_subtype.mp h
      obtain ⟨rfl, rfl⟩ := Prod.mk.inj (gives_ok.mp h)
      exact ⟨s, ss, rfl, hends, rest, ⟨hlt, hread⟩, hle, hitems⟩
    · rintro ⟨s, ss, rfl, _, rest, ⟨hlt, hread⟩, hle, hitems⟩
      exact ⟨_, hlt, hread, gives_bind_subtype.mpr ⟨_, hle, hitems, gives_ok.mpr rfl⟩⟩

theorem gives_choices_nil :
    Gives (choices read ts) ([], after) ↔ ¬ startsWith .pipe ts = true ∧ after = ts := by
  cases ts with
  | nil => simp [choices, gives_ok]
  | cons t ts =>
    rw [choices, startsWith_cons]
    split_ifs with hbar
    · refine iff_of_false (fun h ↦ ?_) fun h ↦ h.1 hbar
      obtain ⟨⟨r, rest⟩, _, _, h⟩ := gives_bind_subtype.mp h
      obtain ⟨⟨rs, last⟩, _, _, h⟩ := gives_bind_subtype.mp h
      cases (Prod.mk.inj (gives_ok.mp h)).1
    · exact gives_ok.trans (by simp [hbar])

theorem gives_choices_cons : Gives (choices read ts) (r :: rs, after) ↔
    ∃ t rest last, ts = t :: rest ∧ t.kind = .pipe ∧ Gives (read rest) (r, last) ∧
      Gives (choices read last) (rs, after) := by
  cases ts with
  | nil => simp [choices, gives_ok]
  | cons t ts =>
    rw [choices]
    split_ifs with hbar
    · refine gives_bind_subtype.trans ⟨?_, ?_⟩
      · rintro ⟨⟨s, rest⟩, hlt, hread, h⟩
        obtain ⟨⟨ss, last⟩, hle, hchoices, h⟩ := gives_bind_subtype.mp h
        obtain ⟨heq, rfl⟩ := Prod.mk.inj (gives_ok.mp h)
        obtain ⟨rfl, rfl⟩ := List.cons.inj heq
        exact ⟨t, ts, rest, rfl, hbar, ⟨hlt, hread⟩, hle, hchoices⟩
      · rintro ⟨u, us, rest, heq, _, ⟨hlt, hread⟩, hle, hchoices⟩
        obtain ⟨rfl, rfl⟩ := List.cons.inj heq
        exact ⟨_, hlt, hread, gives_bind_subtype.mpr ⟨_, hle, hchoices, gives_ok.mpr rfl⟩⟩
    · refine iff_of_false (fun h ↦ ?_) ?_
      · cases (Prod.mk.inj (gives_ok.mp h)).1
      · rintro ⟨u, us, rest, heq, hkind, _⟩
        exact hbar ((List.cons.inj heq).1 ▸ hkind)

theorem gives_alternation : Gives (alternation sourceEnd read ts) (r, after) ↔
    ∃ s ss rest, r = ofChoices (s :: ss) ∧ Gives (sequence sourceEnd read ts) (s, rest) ∧
      Gives (choices (sequence sourceEnd read) rest) (ss, after) := by
  refine gives_bind_subtype.trans ⟨?_, ?_⟩
  · rintro ⟨⟨s, rest⟩, hlt, hsequence, h⟩
    obtain ⟨⟨ss, last⟩, hle, hchoices, h⟩ := gives_bind_subtype.mp h
    obtain ⟨rfl, rfl⟩ := Prod.mk.inj (gives_ok.mp h)
    exact ⟨s, ss, rest, rfl, ⟨hlt, hsequence⟩, hle, hchoices⟩
  · rintro ⟨s, ss, rest, rfl, ⟨hlt, hsequence⟩, hle, hchoices⟩
    exact ⟨_, hlt, hsequence, gives_bind_subtype.mpr ⟨_, hle, hchoices, gives_ok.mpr rfl⟩⟩

/-! ### Classes -/

end Regex

theorem ClassItem.ofToken_of_literal {t : Token} (hdash : t.kind ≠ .dash)
    (hclass : ∀ c, t.kind ≠ .classEscape c) : ofToken t = t.literal.map (.char · t.start) := by
  unfold ofToken
  split
  · rename_i h
    exact absurd h hdash
  · rename_i c h
    exact absurd h (hclass c)
  · rfl

namespace Regex

variable {ts rest after : List Token} {s : CharSet} {opened : Nat}

theorem mapM_eq_ok_iff {ε α β : Type} {f : α → Except ε β} {as : List α} {bs : List β} :
    as.mapM f = .ok bs ↔ List.Forall₂ (fun a b ↦ f a = .ok b) as bs := by
  induction as generalizing bs with
  | nil =>
    rw [List.mapM_nil, List.forall₂_nil_left_iff]
    constructor
    · intro h
      exact (Except.ok.inj h).symm
    · rintro rfl
      rfl
  | cons a as ih =>
    rw [List.mapM_cons, List.forall₂_cons_left_iff]
    constructor
    · intro h
      obtain ⟨b, hb, h⟩ := exists_of_bind_eq_ok h
      obtain ⟨rest, hrest, h⟩ := exists_of_bind_eq_ok h
      obtain rfl := Except.ok.inj h
      exact ⟨b, rest, hb, ih.mp hrest, rfl⟩
    · rintro ⟨b, rest, hb, hrest, rfl⟩
      rw [hb, ih.mpr hrest]
      rfl

theorem mem_of_mem_classSpan {t : Token} (h : t ∈ (classSpan ts).1) : t ∈ ts := by
  cases ts with
  | nil => exact h
  | cons u ts => exact List.cons_subset_cons u (List.takeWhile_sublist _).subset h

/-- A class ends at the first closing bracket behind its first token. -/
theorem classSpan_eq_iff {u : Token} {span : List Token} : classSpan ts = (span, u :: after) ↔
    ∃ first body, span = first :: body ∧ ts = span ++ u :: after ∧ u.kind = .bracketClose ∧
      ∀ t ∈ body, t.kind ≠ .bracketClose := by
  cases ts with
  | nil => simp [classSpan]
  | cons first ts =>
    simp only [classSpan, Prod.mk.injEq]
    constructor
    · rintro ⟨rfl, hdrop⟩
      refine ⟨first, _, rfl, ?_, ?_, ?_⟩
      · rw [← hdrop, List.cons_append, List.takeWhile_append_dropWhile]
      · have hhead := List.head?_dropWhile_not (fun t : Token ↦ t.kind ≠ .bracketClose) ts
        rw [hdrop] at hhead
        simpa using hhead
      · intro t ht
        simpa using List.mem_takeWhile_imp ht
    · rintro ⟨_, body, rfl, heq, hu, hbody⟩
      rw [List.cons_append] at heq
      obtain ⟨rfl, rfl⟩ := List.cons.inj heq
      have hpos : ∀ t ∈ body, decide (t.kind ≠ .bracketClose) = true :=
        fun t ht ↦ decide_eq_true (hbody t ht)
      rw [List.takeWhile_append_of_pos hpos, List.dropWhile_append_of_pos hpos]
      simp [hu]

theorem gives_classSet {negated : Bool} : Gives (classSet opened negated ts) (s, after) ↔
    ∃ u span items ranges, classSpan ts = (span, u :: after) ∧
      List.Forall₂ (fun t i ↦ ClassItem.ofToken t = .ok i) span items ∧
      ClassItem.rangesAll items = .ok ranges ∧
      s = if negated then (CharSet.ofRanges ranges).complement
        else (CharSet.ofRanges ranges).canonical := by
  unfold classSet
  simp only [← mapM_eq_ok_iff]
  refine gives_bind.trans ⟨?_, ?_⟩
  · rintro ⟨items, hitems, h⟩
    split at h
    · exact absurd h not_gives_error
    · rename_i u rest hspan
      obtain ⟨ranges, hranges, h⟩ := gives_bind.mp h
      obtain ⟨rfl, rfl⟩ := Prod.mk.inj (gives_ok.mp h)
      exact ⟨u, _, items, ranges, Prod.ext rfl hspan, hitems, hranges, rfl⟩
  · rintro ⟨u, span, items, ranges, hspan, hitems, hranges, rfl⟩
    refine ⟨items, by rw [hspan]; exact hitems, ?_⟩
    split
    · rename_i hnil
      rw [hspan] at hnil
      cases hnil
    · rename_i v rest hrest
      rw [hspan] at hrest
      obtain ⟨rfl, rfl⟩ := List.cons.inj hrest
      exact gives_bind.mpr ⟨ranges, hranges, gives_ok.mpr rfl⟩

theorem gives_bracketed : Gives (bracketed opened ts) (s, after) ↔
    (¬ startsWith .caret ts = true ∧ Gives (classSet opened false ts) (s, after)) ∨
      ∃ t rest, ts = t :: rest ∧ t.kind = .caret ∧
        Gives (classSet opened true rest) (s, after) := by
  cases ts with
  | nil => simp [bracketed]
  | cons t ts =>
    unfold bracketed
    dsimp only
    rw [startsWith_cons]
    split_ifs with hcaret
    · refine (gives_keep fun _ ↦ ⟨_, rfl⟩).trans ?_
      simp [hcaret]
    · simp [hcaret]

/-- What a class takes does not depend on what comes behind it. -/
theorem gives_classSet_iff_exists {negated : Bool} :
    Gives (classSet opened negated ts) (s, after) ↔
      ∃ inside, ts = inside ++ after ∧ Gives (classSet opened negated inside) (s, []) := by
  simp only [gives_classSet, classSpan_eq_iff]
  constructor
  · rintro ⟨u, span, items, ranges, ⟨first, body, hspan, rfl, hu, hbody⟩, hitems⟩
    refine ⟨span ++ [u], by simp, u, span, items, ranges, ⟨first, body, hspan, rfl, hu, hbody⟩, ?_⟩
    exact hitems
  · rintro ⟨inside, rfl, u, span, items, ranges, ⟨first, body, hspan, rfl, hu, hbody⟩, hitems⟩
    exact ⟨u, span, items, ranges, ⟨first, body, hspan, by simp, hu, hbody⟩, hitems⟩

theorem gives_bracketed_iff_exists : Gives (bracketed opened ts) (s, after) ↔
    ∃ inside, ts = inside ++ after ∧ Gives (bracketed opened inside) (s, []) := by
  simp only [gives_bracketed]
  constructor
  · rintro (⟨hcaret, hclass⟩ | ⟨t, rest, rfl, hkind, hclass⟩)
    · obtain ⟨inside, rfl, hinside⟩ := gives_classSet_iff_exists.mp hclass
      rw [startsWith_append hinside.ne_nil] at hcaret
      exact ⟨inside, rfl, Or.inl ⟨hcaret, hinside⟩⟩
    · obtain ⟨inside, rfl, hinside⟩ := gives_classSet_iff_exists.mp hclass
      exact ⟨t :: inside, rfl, Or.inr ⟨t, inside, rfl, hkind, hinside⟩⟩
  · rintro ⟨inside, rfl, ⟨hcaret, hclass⟩ | ⟨t, rest, rfl, hkind, hclass⟩⟩
    · refine Or.inl ⟨?_, gives_classSet_iff_exists.mpr ⟨inside, rfl, hclass⟩⟩
      rwa [startsWith_append hclass.ne_nil]
    · exact Or.inr ⟨t, rest ++ after, rfl, hkind,
        gives_classSet_iff_exists.mpr ⟨rest, rfl, hclass⟩⟩

end Regex

end SignalRegex
