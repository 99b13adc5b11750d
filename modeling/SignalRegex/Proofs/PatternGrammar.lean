import SignalRegex.Proofs.ReaderAnswers

/-!
The grammar of patterns, with its derivations as data.

A pattern is a choice of sequences of items, and an item is an atom with at most one quantifier. A
derivation keeps the tokens it is made of, so it says how a list of tokens is to be read, and a list
of tokens has at most one derivation (`Derivation.eq_of_tokens_eq`). What may follow a phrase
decides where the phrase ends: no item can start with a quantifier, a bar or a closing parenthesis.
-/

set_option autoImplicit false

namespace SignalRegex

open Regex

namespace Grammar

/-- The kinds of phrases. -/
inductive Symbol where
  | atom
  | item
  | sequence
  | alternation
deriving DecidableEq, Repr

/-- A derivation of a phrase. The sets at the leaves are those that their tokens stand for. -/
inductive Derivation : Symbol → Type where
  | leaf (t : Token) (s : CharSet) : Derivation .atom
  | bracket (opened : Token) (inside : List Token) (s : CharSet) : Derivation .atom
  | group (opened : Token) (inner : Derivation .alternation) (closed : Token) : Derivation .atom
  | plain (a : Derivation .atom) : Derivation .item
  | quantified (a : Derivation .atom) (q : Quantifier) (t : Token) : Derivation .item
  | single (i : Derivation .item) : Derivation .sequence
  | next (i : Derivation .item) (rest : Derivation .sequence) : Derivation .sequence
  | only (s : Derivation .sequence) : Derivation .alternation
  | either (s : Derivation .sequence) (bar : Token) (rest : Derivation .alternation) :
      Derivation .alternation

namespace Derivation

variable {σ : Symbol}

/-- The tokens of a phrase. -/
def tokens : {σ : Symbol} → Derivation σ → List Token
  | _, leaf t _ => [t]
  | _, bracket opened inside _ => opened :: inside
  | _, group opened inner closed => opened :: (inner.tokens ++ [closed])
  | _, plain a => a.tokens
  | _, quantified a _ t => a.tokens ++ [t]
  | _, single i => i.tokens
  | _, next i rest => i.tokens ++ rest.tokens
  | _, only s => s.tokens
  | _, either s bar rest => s.tokens ++ bar :: rest.tokens

theorem tokens_group_append (opened closed : Token) (inner : Derivation .alternation)
    (after : List Token) : (group opened inner closed).tokens ++ after =
      opened :: (inner.tokens ++ closed :: after) := by
  simp [tokens]

theorem tokens_quantified_append (a : Derivation .atom) (q : Quantifier) (t : Token)
    (after : List Token) : (quantified a q t).tokens ++ after = a.tokens ++ t :: after := by
  simp [tokens]

theorem tokens_next_append (i : Derivation .item) (rest : Derivation .sequence)
    (after : List Token) :
    (next i rest).tokens ++ after = i.tokens ++ (rest.tokens ++ after) := by
  simp [tokens]

theorem tokens_either_append (s : Derivation .sequence) (bar : Token)
    (rest : Derivation .alternation) (after : List Token) :
    (either s bar rest).tokens ++ after = s.tokens ++ bar :: (rest.tokens ++ after) := by
  simp [tokens]

/-- How deep parentheses are nested. -/
def depth : {σ : Symbol} → Derivation σ → Nat
  | _, leaf _ _ => 0
  | _, bracket _ _ _ => 0
  | _, group _ inner _ => inner.depth + 1
  | _, plain a => a.depth
  | _, quantified a _ _ => a.depth
  | _, single i => i.depth
  | _, next i rest => max i.depth rest.depth
  | _, only s => s.depth
  | _, either s _ rest => max s.depth rest.depth

mutual

/-- The tree of a phrase. A sequence of one item is that item, and a choice of one sequence is that
sequence. -/
def tree : {σ : Symbol} → Derivation σ → Regex
  | _, leaf _ s => .set s
  | _, bracket _ _ s => .set s
  | _, group _ inner _ => inner.tree
  | _, plain a => a.tree
  | _, quantified a q _ => q.apply a.tree
  | _, single i => i.tree
  | _, next i rest => .concat (i.tree :: rest.trees)
  | _, only s => s.tree
  | _, either s _ rest => .alternate (s.tree :: rest.trees)

/-- The trees of the items of a sequence or of the sequences of a choice. -/
def trees : {σ : Symbol} → Derivation σ → List Regex
  | _, next i rest => i.tree :: rest.trees
  | _, either s _ rest => s.tree :: rest.trees
  | _, single i => [i.tree]
  | _, only s => [s.tree]
  | _, _ => []

end

/-- The phrase keeps the rules of the grammar, given the tokens behind it. A bound on repetition may
only stand at the start of a sequence, where it is read as the characters it is made of. -/
def WellFormed : {σ : Symbol} → Derivation σ → List Token → Prop
  | _, leaf t s, _ => t.Leaf s
  | _, bracket opened inside s, _ =>
    opened.kind = .bracketOpen ∧ Gives (bracketed opened.start inside) (s, [])
  | _, group opened inner closed, after =>
    opened.kind = .parenOpen ∧ inner.WellFormed (closed :: after) ∧ closed.kind = .parenClose
  | _, plain a, after => a.WellFormed after
  | _, quantified a q t, after =>
    a.WellFormed (t :: after) ∧ t.kind = q.kind ∧ ¬ StartsQuantifier after
  | _, single i, after => i.WellFormed after
  | _, next i rest, after =>
    i.WellFormed (rest.tokens ++ after) ∧ ¬ StartsBound (rest.tokens ++ after) ∧
      rest.WellFormed after
  | _, only s, after => s.WellFormed after
  | _, either s bar rest, after =>
    s.WellFormed (bar :: (rest.tokens ++ after)) ∧ bar.kind = .pipe ∧ rest.WellFormed after

end Derivation

/-! ### What follows a phrase -/

/-- Tokens that can stand behind a phrase without belonging to it. -/
def Follows : Symbol → List Token → Prop
  | .atom, _ => True
  | .item, after => ¬ StartsQuantifier after ∧ ¬ StartsBound after
  | .sequence, after => sequenceEnds after = true
  | .alternation, after => after = [] ∨ startsWith .parenClose after = true

variable {after : List Token} {t : Token}

theorem sequenceEnds_iff : sequenceEnds after = true ↔
    after = [] ∨ startsWith .pipe after = true ∨ startsWith .parenClose after = true := by
  simp [sequenceEnds, or_assoc]

theorem Follows.sequence (h : Follows .alternation after) : Follows .sequence after :=
  sequenceEnds_iff.mpr (h.imp_right Or.inr)

theorem not_startsQuantifier_of_kind {kind : Token.Kind} (h : startsWith kind after = true)
    (hkind : ∀ q : Quantifier, kind ≠ q.kind) : ¬ StartsQuantifier after := by
  cases after with
  | nil => exact not_startsQuantifier_nil
  | cons t rest =>
    rw [startsWith_cons] at h
    rw [startsQuantifier_cons, h]
    rintro ⟨q, hq⟩
    exact hkind q hq

theorem startsQuantifier_of_startsWith {q : Quantifier} (h : startsWith q.kind after = true) :
    StartsQuantifier after := by
  cases after with
  | nil => exact absurd h not_startsWith_nil
  | cons t rest => exact startsQuantifier_cons.mpr ⟨q, startsWith_cons.mp h⟩

theorem not_startsBound_of_kind {kind : Token.Kind} (h : startsWith kind after = true)
    (hkind : kind ≠ .braceOpen) : ¬ StartsBound after := by
  cases after with
  | nil => exact not_startsBound_nil
  | cons t rest =>
    rintro ⟨hbrace, _⟩
    rw [startsWith_cons] at h hbrace
    exact hkind (h.symm.trans hbrace)

theorem Follows.item (h : Follows .sequence after) : Follows .item after := by
  rcases sequenceEnds_iff.mp h with rfl | h | h
  · exact ⟨not_startsQuantifier_nil, not_startsBound_nil⟩
  · exact ⟨not_startsQuantifier_of_kind h fun q ↦ by cases q <;> decide,
      not_startsBound_of_kind h (by decide)⟩
  · exact ⟨not_startsQuantifier_of_kind h fun q ↦ by cases q <;> decide,
      not_startsBound_of_kind h (by decide)⟩

/-- A bar does not stand behind a choice. -/
theorem Follows.not_bar (h : Follows .alternation after) : ¬ startsWith .pipe after = true := by
  rcases h with rfl | hclose
  · exact not_startsWith_nil
  · cases after with
    | nil => exact not_startsWith_nil
    | cons t rest =>
      rw [startsWith_cons] at hclose
      rw [startsWith_cons, hclose]
      decide

theorem follows_sequence_bar (h : t.kind = .pipe) : Follows .sequence (t :: after) :=
  sequenceEnds_iff.mpr (Or.inr (Or.inl (startsWith_cons.mpr h)))

theorem follows_alternation_close (h : t.kind = .parenClose) : Follows .alternation (t :: after) :=
  Or.inr (startsWith_cons.mpr h)

/-- A token that starts an atom. -/
def Opens (t : Token) : Prop :=
  t.kind = .parenOpen ∨ t.kind = .bracketOpen ∨ ∃ s, t.Leaf s

theorem Opens.kind_not_mem (h : Opens t) :
    t.kind ∉ [.star, .plus, .question, .pipe, .parenClose] := by
  rcases h with h | h | ⟨s, h⟩
  · simp [h]
  · simp [h]
  · intro hmem
    simp only [List.mem_cons, List.not_mem_nil, or_false] at hmem
    rcases hmem with hkind | hkind | hkind | hkind | hkind <;> simp [Token.Leaf, hkind] at h

theorem Opens.not_startsQuantifier (h : Opens t) : ¬ StartsQuantifier (t :: after) := by
  rw [startsQuantifier_cons]
  rintro ⟨q, hq⟩
  refine h.kind_not_mem ?_
  rw [hq]
  cases q <;> decide

theorem Opens.not_sequenceEnds (h : Opens t) : ¬ sequenceEnds (t :: after) = true := by
  rw [sequenceEnds_iff, startsWith_cons, startsWith_cons]
  rintro (hnil | hkind | hkind)
  · cases hnil
  · exact h.kind_not_mem (by simp [hkind])
  · exact h.kind_not_mem (by simp [hkind])

namespace Derivation

variable {σ : Symbol}

/-- Every phrase starts with a token that starts an atom. -/
theorem exists_tokens_eq_cons {d : Derivation σ} {after : List Token} (h : d.WellFormed after) :
    ∃ t rest, d.tokens = t :: rest ∧ Opens t := by
  induction d generalizing after with
  | leaf t s => exact ⟨t, [], rfl, Or.inr (Or.inr ⟨s, h⟩)⟩
  | bracket opened inside s => exact ⟨opened, inside, rfl, Or.inr (Or.inl h.1)⟩
  | group opened inner closed => exact ⟨opened, _, rfl, Or.inl h.1⟩
  | plain a ih => exact ih h
  | single i ih => exact ih h
  | only s ih => exact ih h
  | quantified a q t ih =>
    obtain ⟨u, rest, htokens, hopens⟩ := ih h.1
    exact ⟨u, rest ++ [t], by rw [tokens, htokens]; rfl, hopens⟩
  | next i rest ih =>
    obtain ⟨u, us, htokens, hopens⟩ := ih h.1
    exact ⟨u, us ++ rest.tokens, by rw [tokens, htokens]; rfl, hopens⟩
  | either s bar rest ih =>
    obtain ⟨u, us, htokens, hopens⟩ := ih h.1
    exact ⟨u, us ++ bar :: rest.tokens, by rw [tokens, htokens]; rfl, hopens⟩

theorem not_startsQuantifier_tokens {d : Derivation σ} (h : d.WellFormed after) :
    ¬ StartsQuantifier (d.tokens ++ after) := by
  obtain ⟨t, rest, htokens, hopens⟩ := exists_tokens_eq_cons h
  rw [htokens]
  exact hopens.not_startsQuantifier

theorem not_sequenceEnds_tokens {d : Derivation σ} (h : d.WellFormed after) :
    ¬ sequenceEnds (d.tokens ++ after) = true := by
  obtain ⟨t, rest, htokens, hopens⟩ := exists_tokens_eq_cons h
  rw [htokens]
  exact hopens.not_sequenceEnds

/-- Behind an item of a sequence comes another item, or what follows the sequence. -/
theorem follows_item_tokens {d : Derivation .sequence} (h : d.WellFormed after)
    (hbound : ¬ StartsBound (d.tokens ++ after)) : Follows .item (d.tokens ++ after) :=
  ⟨not_startsQuantifier_tokens h, hbound⟩

/-! ### Derivations are unique -/

theorem leaf_kind_ne {s : CharSet} (h : t.Leaf s) :
    t.kind ≠ .parenOpen ∧ t.kind ≠ .bracketOpen := by
  constructor
  · intro hkind
    simp [Token.Leaf, hkind] at h
  · intro hkind
    simp [Token.Leaf, hkind] at h

theorem leaf_unique {s s' : CharSet} (h : t.Leaf s) (h' : t.Leaf s') : s = s' := by
  have hset := Gives.unique
    (x := Regex.atom 0 (fun _ _ ↦ .error (.malformed 0 .nestedTooDeeply)) [t])
    (gives_atom.mpr (Or.inr (Or.inr ⟨s, h, rfl, rfl⟩)))
    (gives_atom.mpr (Or.inr (Or.inr ⟨s', h', rfl, rfl⟩)))
  exact Regex.set.inj (Prod.mk.inj hset).1

/-- No other phrase of its kind starts the same tokens. -/
def Determined (d : Derivation σ) : Prop :=
  ∀ ⦃d' : Derivation σ⦄ ⦃after after' : List Token⦄, d.WellFormed after → d'.WellFormed after' →
    Follows σ after → Follows σ after' → d.tokens ++ after = d'.tokens ++ after' →
      d = d' ∧ after = after'

theorem determined_leaf (t : Token) (s : CharSet) : (leaf t s).Determined := by
  intro d' after after' hd hd' _ _ heq
  cases d' with
  | leaf t' s' =>
    obtain ⟨rfl, rfl⟩ := List.cons.inj heq
    exact ⟨by rw [leaf_unique hd hd'], rfl⟩
  | bracket opened' inside' s' =>
    obtain ⟨rfl, _⟩ := List.cons.inj heq
    exact absurd hd'.1 (leaf_kind_ne hd).2
  | group opened' inner' closed' =>
    obtain ⟨rfl, _⟩ := List.cons.inj heq
    exact absurd hd'.1 (leaf_kind_ne hd).1

theorem determined_bracket (opened : Token) (inside : List Token) (s : CharSet) :
    (bracket opened inside s).Determined := by
  intro d' after after' hd hd' _ _ heq
  obtain ⟨hkind, hinside⟩ := hd
  cases d' with
  | leaf t' s' =>
    obtain ⟨rfl, _⟩ := List.cons.inj heq
    exact absurd hkind (leaf_kind_ne hd').2
  | bracket opened' inside' s' =>
    obtain ⟨rfl, htail⟩ := List.cons.inj heq
    have hread := gives_bracketed_iff_exists.mpr ⟨inside, (rfl : inside ++ after = _), hinside⟩
    have hread' := gives_bracketed_iff_exists.mpr ⟨inside', htail, hd'.2⟩
    obtain ⟨rfl, rfl⟩ := Prod.mk.inj (hread.unique hread')
    exact ⟨by rw [List.append_cancel_right htail], rfl⟩
  | group opened' inner' closed' =>
    obtain ⟨rfl, _⟩ := List.cons.inj heq
    cases hkind.symm.trans hd'.1

theorem Determined.group {inner : Derivation .alternation} (h : inner.Determined)
    (opened closed : Token) : (group opened inner closed).Determined := by
  intro d' after after' hd hd' _ _ heq
  obtain ⟨hkind, hinner, hclosed⟩ := hd
  cases d' with
  | leaf t' s' =>
    obtain ⟨rfl, _⟩ := List.cons.inj heq
    exact absurd hkind (leaf_kind_ne hd').1
  | bracket opened' inside' s' =>
    obtain ⟨rfl, _⟩ := List.cons.inj heq
    cases hkind.symm.trans hd'.1
  | group opened' inner' closed' =>
    obtain ⟨_, hinner', hclosed'⟩ := hd'
    rw [tokens_group_append, tokens_group_append] at heq
    obtain ⟨rfl, htail⟩ := List.cons.inj heq
    obtain ⟨rfl, hclose⟩ := h hinner hinner' (follows_alternation_close hclosed)
      (follows_alternation_close hclosed') htail
    obtain ⟨rfl, rfl⟩ := List.cons.inj hclose
    exact ⟨rfl, rfl⟩

theorem Determined.plain {a : Derivation .atom} (h : a.Determined) : (plain a).Determined := by
  intro d' after after' hd hd' hfollows _ heq
  cases d' with
  | plain a' =>
    obtain ⟨rfl, rfl⟩ := h hd hd' trivial trivial heq
    exact ⟨rfl, rfl⟩
  | quantified a' q' t' =>
    rw [tokens_quantified_append] at heq
    obtain ⟨rfl, rfl⟩ := h hd hd'.1 trivial trivial heq
    exact absurd (startsQuantifier_cons.mpr ⟨q', hd'.2.1⟩) hfollows.1

theorem Determined.quantified {a : Derivation .atom} (h : a.Determined) (q : Quantifier)
    (t : Token) : (quantified a q t).Determined := by
  intro d' after after' hd hd' _ hfollows' heq
  obtain ⟨ha, hkind, _⟩ := hd
  cases d' with
  | plain a' =>
    rw [tokens_quantified_append] at heq
    obtain ⟨rfl, rfl⟩ := h ha hd' trivial trivial heq
    exact absurd (startsQuantifier_cons.mpr ⟨q, hkind⟩) hfollows'.1
  | quantified a' q' t' =>
    obtain ⟨ha', hkind', _⟩ := hd'
    rw [tokens_quantified_append, tokens_quantified_append] at heq
    obtain ⟨rfl, htail⟩ := h ha ha' trivial trivial heq
    obtain ⟨rfl, rfl⟩ := List.cons.inj htail
    obtain rfl := Quantifier.kind_injective (hkind.symm.trans hkind')
    exact ⟨rfl, rfl⟩

theorem Determined.single {i : Derivation .item} (h : i.Determined) : (single i).Determined := by
  intro d' after after' hd hd' hfollows hfollows' heq
  cases d' with
  | single i' =>
    obtain ⟨rfl, rfl⟩ := h hd hd' hfollows.item hfollows'.item heq
    exact ⟨rfl, rfl⟩
  | next i' rest' =>
    obtain ⟨hi', hbound', hrest'⟩ := hd'
    rw [tokens_next_append] at heq
    obtain ⟨rfl, rfl⟩ := h hd hi' hfollows.item (follows_item_tokens hrest' hbound') heq
    exact absurd hfollows (not_sequenceEnds_tokens hrest')

theorem Determined.next {i : Derivation .item} {rest : Derivation .sequence} (h : i.Determined)
    (hrest : rest.Determined) : (next i rest).Determined := by
  intro d' after after' hd hd' hfollows hfollows' heq
  obtain ⟨hi, hbound, htail⟩ := hd
  have hitem := follows_item_tokens htail hbound
  cases d' with
  | single i' =>
    rw [tokens_next_append] at heq
    obtain ⟨rfl, rfl⟩ := h hi hd' hitem hfollows'.item heq
    exact absurd hfollows' (not_sequenceEnds_tokens htail)
  | next i' rest' =>
    obtain ⟨hi', hbound', htail'⟩ := hd'
    rw [tokens_next_append, tokens_next_append] at heq
    obtain ⟨rfl, hmore⟩ := h hi hi' hitem (follows_item_tokens htail' hbound') heq
    obtain ⟨rfl, rfl⟩ := hrest htail htail' hfollows hfollows' hmore
    exact ⟨rfl, rfl⟩

theorem Determined.only {s : Derivation .sequence} (h : s.Determined) : (only s).Determined := by
  intro d' after after' hd hd' hfollows hfollows' heq
  cases d' with
  | only s' =>
    obtain ⟨rfl, rfl⟩ := h hd hd' hfollows.sequence hfollows'.sequence heq
    exact ⟨rfl, rfl⟩
  | either s' bar' rest' =>
    obtain ⟨hs', hbar', _⟩ := hd'
    rw [tokens_either_append] at heq
    obtain ⟨rfl, rfl⟩ := h hd hs' hfollows.sequence (follows_sequence_bar hbar') heq
    exact absurd (startsWith_cons.mpr hbar') hfollows.not_bar

theorem Determined.either {s : Derivation .sequence} {rest : Derivation .alternation}
    (h : s.Determined) (hrest : rest.Determined) (bar : Token) :
    (either s bar rest).Determined := by
  intro d' after after' hd hd' hfollows hfollows' heq
  obtain ⟨hs, hbar, htail⟩ := hd
  cases d' with
  | only s' =>
    rw [tokens_either_append] at heq
    obtain ⟨rfl, rfl⟩ := h hs hd' (follows_sequence_bar hbar) hfollows'.sequence heq
    exact absurd (startsWith_cons.mpr hbar) hfollows'.not_bar
  | either s' bar' rest' =>
    obtain ⟨hs', hbar', htail'⟩ := hd'
    rw [tokens_either_append, tokens_either_append] at heq
    obtain ⟨rfl, hmore⟩ := h hs hs' (follows_sequence_bar hbar) (follows_sequence_bar hbar') heq
    obtain ⟨rfl, hlast⟩ := List.cons.inj hmore
    obtain ⟨rfl, rfl⟩ := hrest htail htail' hfollows hfollows' hlast
    exact ⟨rfl, rfl⟩

theorem determined (d : Derivation σ) : d.Determined := by
  induction d with
  | leaf t s => exact determined_leaf t s
  | bracket opened inside s => exact determined_bracket opened inside s
  | group opened inner closed ih => exact ih.group opened closed
  | plain a ih => exact ih.plain
  | quantified a q t ih => exact ih.quantified q t
  | single i ih => exact ih.single
  | next i rest ih ihrest => exact ih.next ihrest
  | only s ih => exact ih.only
  | either s bar rest ih ihrest => exact ih.either ihrest bar

/-- A list of tokens has at most one derivation. -/
theorem eq_of_tokens_eq {d d' : Derivation .alternation} (hd : d.WellFormed [])
    (hd' : d'.WellFormed []) (heq : d.tokens = d'.tokens) : d = d' :=
  (determined d hd hd' (Or.inl rfl) (Or.inl rfl) (by rw [heq])).1

end Derivation

end Grammar

end SignalRegex
