import SignalRegex.Proofs.PatternGrammar
import SignalRegex.Proofs.ScannedTokens

/-!
Patterns are read by their grammar.

Every reader takes exactly the phrases of its kind that can end before what comes behind them
(`readsPhrases_nestedWithin`). A text is therefore read exactly when its tokens have a derivation,
and what is read is the tree of that derivation.
-/

set_option autoImplicit false

namespace SignalRegex

open Regex

namespace Grammar

variable {ts after : List Token} {r : Regex} {rs : List Regex} {sourceEnd depth : Nat}
  {read : TokenReader Regex} {nested : Nat → TokenReader Regex}

/-- The phrase stands at the start of the tokens and ends before `after`. -/
structure Stands {σ : Symbol} (d : Derivation σ) (ts after : List Token) : Prop where
  wellFormed : d.WellFormed after
  follows : Follows σ after
  tokens_eq : ts = d.tokens ++ after

/-- The reader takes the phrases of one kind with parentheses nested at most `depth` deep. -/
def ReadsPhrases (read : TokenReader Regex) (σ : Symbol) (depth : Nat) : Prop :=
  ∀ ts r after, Gives (read ts) (r, after) ↔
    ∃ d : Derivation σ, Stands d ts after ∧ d.depth ≤ depth ∧ r = d.tree

/-- What stands in parentheses is read as a choice with parentheses nested less than `depth`
deep. -/
def ReadsInside (nested : Nat → TokenReader Regex) (depth : Nat) : Prop :=
  ∀ opened ts r after, Gives (nested opened ts) (r, after) ↔
    ∃ d : Derivation .alternation, Stands d ts after ∧ d.depth < depth ∧ r = d.tree

theorem readsPhrases_atom (h : ReadsInside nested depth) :
    ReadsPhrases (Regex.atom sourceEnd nested) .atom depth := by
  intro ts r after
  constructor
  · intro hread
    cases ts with
    | nil => exact absurd hread not_gives_error
    | cons t ts =>
      rcases gives_atom.mp hread with ⟨hopened, hgroup⟩ | ⟨hopened, s, rfl, hclass⟩ |
        ⟨s, hleaf, rfl, rfl⟩
      · obtain ⟨_, closed, hclosed, hnested⟩ := gives_group.mp hgroup
        obtain ⟨inner, ⟨hinner, _, rfl⟩, hdepth, rfl⟩ := (h _ _ _ _).mp hnested
        exact ⟨.group t inner closed, ⟨⟨hopened, hinner, hclosed⟩, trivial,
          (Derivation.tokens_group_append ..).symm⟩, hdepth, rfl⟩
      · obtain ⟨inside, rfl, hinside⟩ := gives_bracketed_iff_exists.mp hclass
        exact ⟨.bracket t inside s, ⟨⟨hopened, hinside⟩, trivial, rfl⟩, Nat.zero_le _, rfl⟩
      · exact ⟨.leaf t s, ⟨hleaf, trivial, rfl⟩, Nat.zero_le _, rfl⟩
  · rintro ⟨d, ⟨hd, _, rfl⟩, hdepth, rfl⟩
    cases d with
    | leaf t s => exact gives_atom.mpr (Or.inr (Or.inr ⟨s, hd, rfl, rfl⟩))
    | bracket opened inside s =>
      have hclass := gives_bracketed_iff_exists.mpr ⟨inside, (rfl : inside ++ after = _), hd.2⟩
      exact gives_atom.mpr (Or.inr (Or.inl ⟨hd.1, s, rfl, hclass⟩))
    | group opened inner closed =>
      obtain ⟨hopened, hinner, hclosed⟩ := hd
      have hstands : Stands inner (inner.tokens ++ closed :: after) (closed :: after) :=
        ⟨hinner, follows_alternation_close hclosed, rfl⟩
      have hnested := (h opened.start _ _ _).mpr ⟨inner, hstands, hdepth, rfl⟩
      have hquestion : ¬ startsWith .question (inner.tokens ++ closed :: after) = true :=
        fun h ↦ Derivation.not_startsQuantifier_tokens hinner
          (startsQuantifier_of_startsWith (q := .question) h)
      have hgroup := gives_group.mpr ⟨hquestion, closed, hclosed, hnested⟩
      rw [Derivation.tokens_group_append]
      exact gives_atom.mpr (Or.inl ⟨hopened, hgroup⟩)

theorem readsPhrases_item (h : ReadsPhrases (Regex.atom sourceEnd nested) .atom depth) :
    ReadsPhrases (Regex.item sourceEnd nested) .item depth := by
  intro ts q after
  rw [gives_item]
  constructor
  · rintro ⟨r, rest, hatom, hquantify⟩
    obtain ⟨a, ⟨ha, _, rfl⟩, hdepth, rfl⟩ := (h _ _ _).mp hatom
    obtain ⟨hbound, ⟨rfl, rfl, hquantifier⟩ | ⟨t, n, rfl, hkind, rfl, hfollows⟩⟩ :=
      gives_quantify.mp hquantify
    · exact ⟨.plain a, ⟨ha, ⟨hquantifier, hbound⟩, rfl⟩, hdepth, rfl⟩
    · exact ⟨.quantified a n t, ⟨⟨ha, hkind, hfollows.1⟩, hfollows,
        (Derivation.tokens_quantified_append ..).symm⟩, hdepth, rfl⟩
  · rintro ⟨d, ⟨hd, hfollows, rfl⟩, hdepth, rfl⟩
    cases d with
    | plain a =>
      refine ⟨a.tree, after, (h _ _ _).mpr ⟨a, ⟨hd, trivial, rfl⟩, hdepth, rfl⟩, ?_⟩
      exact gives_quantify.mpr ⟨hfollows.2, Or.inl ⟨rfl, rfl, hfollows.1⟩⟩
    | quantified a n t =>
      obtain ⟨ha, hkind, _⟩ := hd
      have hbound : ¬ StartsBound (t :: after) :=
        not_startsBound_of_kind (startsWith_cons.mpr hkind) (by cases n <;> decide)
      have hatom := (h _ _ _).mpr ⟨a, ⟨ha, trivial, rfl⟩, hdepth, rfl⟩
      rw [Derivation.tokens_quantified_append]
      exact ⟨a.tree, t :: after, hatom, gives_quantify.mpr
        ⟨hbound, Or.inr ⟨t, n, rfl, hkind, rfl, hfollows⟩⟩⟩

/-! ### Sequences and choices -/

theorem trees_sequence_ne_nil (d : Derivation .sequence) : d.trees ≠ [] := by
  cases d <;> exact List.cons_ne_nil _ _

theorem trees_alternation_ne_nil (d : Derivation .alternation) : d.trees ≠ [] := by
  cases d <;> exact List.cons_ne_nil _ _

theorem tree_eq_ofSequence (d : Derivation .sequence) : d.tree = ofSequence d.trees := by
  cases d with
  | single i => rfl
  | next i rest =>
    obtain ⟨r, rs, hrs⟩ := List.exists_cons_of_ne_nil (trees_sequence_ne_nil rest)
    rw [Derivation.tree, Derivation.trees, hrs]
    rfl

theorem tree_eq_ofChoices (d : Derivation .alternation) : d.tree = ofChoices d.trees := by
  cases d with
  | only s => rfl
  | either s bar rest =>
    obtain ⟨r, rs, hrs⟩ := List.exists_cons_of_ne_nil (trees_alternation_ne_nil rest)
    rw [Derivation.tree, Derivation.trees, hrs]
    rfl

theorem exists_of_gives_items (h : ReadsPhrases read .item depth)
    (hitems : Gives (items read ts) (r :: rs, after)) :
    ∃ d : Derivation .sequence, Stands d ts after ∧ d.depth ≤ depth ∧ r :: rs = d.trees := by
  induction rs generalizing r ts with
  | nil =>
    obtain ⟨_, rest, hread, hitems⟩ := gives_items_cons.mp hitems
    obtain ⟨hends, rfl⟩ := gives_items_nil.mp hitems
    obtain ⟨i, ⟨hi, _, rfl⟩, hdepth, rfl⟩ := (h _ _ _).mp hread
    exact ⟨.single i, ⟨hi, hends, rfl⟩, hdepth, rfl⟩
  | cons r' rs ih =>
    obtain ⟨_, rest, hread, hitems⟩ := gives_items_cons.mp hitems
    obtain ⟨d, ⟨hd, hfollows, rfl⟩, hdepth, htrees⟩ := ih hitems
    obtain ⟨i, ⟨hi, hfollows', rfl⟩, hdepth', rfl⟩ := (h _ _ _).mp hread
    exact ⟨.next i d, ⟨⟨hi, hfollows'.2, hd⟩, hfollows, (Derivation.tokens_next_append ..).symm⟩,
      Nat.max_le.mpr ⟨hdepth', hdepth⟩, congrArg (_ :: ·) htrees⟩

theorem gives_items_of_stands (h : ReadsPhrases read .item depth) {d : Derivation .sequence}
    (hd : Stands d ts after) (hdepth : d.depth ≤ depth) :
    Gives (items read ts) (d.trees, after) := by
  -- on the number of items, since a derivation of one kind of phrase is not an induction variable
  generalize htrees : d.trees = rs
  induction rs generalizing d ts with
  | nil => exact absurd htrees (trees_sequence_ne_nil d)
  | cons r rs ih =>
    obtain ⟨hwf, hfollows, rfl⟩ := hd
    refine gives_items_cons.mpr ⟨Derivation.not_sequenceEnds_tokens hwf, ?_⟩
    cases d with
    | single i =>
      obtain ⟨rfl, rfl⟩ := List.cons.inj htrees
      exact ⟨after, (h _ _ _).mpr ⟨i, ⟨hwf, hfollows.item, rfl⟩, hdepth, rfl⟩,
        gives_items_nil.mpr ⟨hfollows, rfl⟩⟩
    | next i rest =>
      obtain ⟨rfl, hmore⟩ := List.cons.inj htrees
      obtain ⟨hi, hbound, hrest⟩ := hwf
      obtain ⟨hdepth, hdepth'⟩ := Nat.max_le.mp hdepth
      rw [Derivation.tokens_next_append]
      refine ⟨rest.tokens ++ after, (h _ _ _).mpr ⟨i, ⟨hi, ?_, rfl⟩, hdepth, rfl⟩, ?_⟩
      · exact Derivation.follows_item_tokens hrest hbound
      · exact ih ⟨hrest, hfollows, rfl⟩ hdepth' hmore

theorem readsPhrases_sequence (h : ReadsPhrases read .item depth) :
    ReadsPhrases (Regex.sequence sourceEnd read) .sequence depth := by
  intro ts r after
  rw [gives_sequence]
  constructor
  · rintro ⟨s, ss, rfl, hitems⟩
    obtain ⟨d, hd, hdepth, htrees⟩ := exists_of_gives_items h hitems
    exact ⟨d, hd, hdepth, by rw [htrees, tree_eq_ofSequence]⟩
  · rintro ⟨d, hd, hdepth, rfl⟩
    obtain ⟨s, ss, htrees⟩ := List.exists_cons_of_ne_nil (trees_sequence_ne_nil d)
    refine ⟨s, ss, by rw [← htrees, tree_eq_ofSequence], ?_⟩
    rw [← htrees]
    exact gives_items_of_stands h hd hdepth

theorem exists_of_gives_choices (h : ReadsPhrases read .sequence depth) {rest : List Token}
    (hread : Gives (read ts) (r, rest)) (hchoices : Gives (choices read rest) (rs, after)) :
    ∃ d : Derivation .alternation, Stands d ts after ∧ d.depth ≤ depth ∧ r :: rs = d.trees := by
  induction rs generalizing ts r rest with
  | nil =>
    obtain ⟨hbar, rfl⟩ := gives_choices_nil.mp hchoices
    obtain ⟨s, ⟨hs, hfollows, rfl⟩, hdepth, rfl⟩ := (h _ _ _).mp hread
    have hends : Follows .alternation after :=
      (sequenceEnds_iff.mp hfollows).imp_right fun h ↦ h.resolve_left hbar
    exact ⟨.only s, ⟨hs, hends, rfl⟩, hdepth, rfl⟩
  | cons r' rs ih =>
    obtain ⟨bar, rest, last, rfl, hbar, hread', hchoices⟩ := gives_choices_cons.mp hchoices
    obtain ⟨d, ⟨hd, hfollows, rfl⟩, hdepth, htrees⟩ := ih hread' hchoices
    obtain ⟨s, ⟨hs, _, rfl⟩, hdepth', rfl⟩ := (h _ _ _).mp hread
    exact ⟨.either s bar d, ⟨⟨hs, hbar, hd⟩, hfollows, (Derivation.tokens_either_append ..).symm⟩,
      Nat.max_le.mpr ⟨hdepth', hdepth⟩, congrArg (_ :: ·) htrees⟩

theorem gives_choices_of_stands (h : ReadsPhrases read .sequence depth)
    {d : Derivation .alternation} (hd : Stands d ts after) (hdepth : d.depth ≤ depth)
    (htrees : d.trees = r :: rs) :
    ∃ rest, Gives (read ts) (r, rest) ∧ Gives (choices read rest) (rs, after) := by
  induction rs generalizing d ts r with
  | nil =>
    obtain ⟨hwf, hfollows, rfl⟩ := hd
    cases d with
    | only s =>
      obtain ⟨rfl, _⟩ := List.cons.inj htrees
      exact ⟨after, (h _ _ _).mpr ⟨s, ⟨hwf, hfollows.sequence, rfl⟩, hdepth, rfl⟩,
        gives_choices_nil.mpr ⟨hfollows.not_bar, rfl⟩⟩
    | either s bar rest =>
      exact absurd (List.cons.inj htrees).2 (trees_alternation_ne_nil rest)
  | cons r' rs ih =>
    obtain ⟨hwf, hfollows, rfl⟩ := hd
    cases d with
    | only s => cases (List.cons.inj htrees).2
    | either s bar rest =>
      obtain ⟨rfl, hmore⟩ := List.cons.inj htrees
      obtain ⟨hs, hbar, hrest⟩ := hwf
      obtain ⟨hdepth, hdepth'⟩ := Nat.max_le.mp hdepth
      obtain ⟨last, hread, hchoices⟩ := ih ⟨hrest, hfollows, rfl⟩ hdepth' hmore
      rw [Derivation.tokens_either_append]
      refine ⟨bar :: (rest.tokens ++ after), (h _ _ _).mpr ⟨s, ⟨hs, ?_, rfl⟩, hdepth, rfl⟩, ?_⟩
      · exact follows_sequence_bar hbar
      · exact gives_choices_cons.mpr ⟨bar, _, last, rfl, hbar, hread, hchoices⟩

theorem readsPhrases_alternation
    (h : ReadsPhrases (Regex.sequence sourceEnd read) .sequence depth) :
    ReadsPhrases (Regex.alternation sourceEnd read) .alternation depth := by
  intro ts r after
  rw [gives_alternation]
  constructor
  · rintro ⟨s, ss, rest, rfl, hsequence, hchoices⟩
    obtain ⟨d, hd, hdepth, htrees⟩ := exists_of_gives_choices h hsequence hchoices
    exact ⟨d, hd, hdepth, by rw [htrees, tree_eq_ofChoices]⟩
  · rintro ⟨d, hd, hdepth, rfl⟩
    obtain ⟨s, ss, htrees⟩ := List.exists_cons_of_ne_nil (trees_alternation_ne_nil d)
    obtain ⟨rest, hsequence, hchoices⟩ := gives_choices_of_stands h hd hdepth htrees
    exact ⟨s, ss, rest, by rw [← htrees, tree_eq_ofChoices], hsequence, hchoices⟩

/-! ### Patterns -/

theorem readsPhrases_of_readsInside (h : ReadsInside nested depth) :
    ReadsPhrases (Regex.alternation sourceEnd (Regex.item sourceEnd nested)) .alternation depth :=
  readsPhrases_alternation (readsPhrases_sequence (readsPhrases_item (readsPhrases_atom h)))

/-- At the limit nothing is read in parentheses. -/
theorem readsInside_tooDeep :
    ReadsInside (fun opened _ ↦ .error (.malformed opened .nestedTooDeeply)) 0 := by
  intro opened ts r after
  refine iff_of_false not_gives_error ?_
  rintro ⟨d, _, hdepth, _⟩
  exact Nat.not_lt_zero _ hdepth

theorem readsInside_of_readsPhrases (h : ReadsPhrases read .alternation depth) :
    ReadsInside (fun _ ts ↦ read ts) (depth + 1) := by
  intro opened ts r after
  simp only [Nat.lt_succ_iff]
  exact h ts r after

/-- The reader of patterns takes the choices with parentheses nested as deep as it may go. -/
theorem readsPhrases_nestedWithin (sourceEnd depth : Nat) :
    ReadsPhrases (nestedWithin sourceEnd depth) .alternation depth := by
  induction depth with
  | zero => exact readsPhrases_of_readsInside readsInside_tooDeep
  | succ depth ih => exact readsPhrases_of_readsInside (readsInside_of_readsPhrases ih)

/-- A text is read exactly when its tokens have a derivation. -/
theorem parseWithin_eq_ok_iff {source : String} : parseWithin depth source = .ok r ↔
    ∃ d : Derivation .alternation, d.tokens = Token.scan source ∧ d.WellFormed [] ∧
      d.depth ≤ depth ∧ d.tree = r := by
  have hread := readsPhrases_nestedWithin (byteLength source.toList) depth (Token.scan source) r []
  constructor
  · intro h
    obtain ⟨⟨⟨s, rest⟩, hlt⟩, hs, h⟩ := exists_of_bind_eq_ok h
    cases rest with
    | nil =>
      obtain rfl := Except.ok.inj h
      obtain ⟨d, ⟨hd, _, htokens⟩, hdepth, htree⟩ := hread.mp ⟨hlt, hs⟩
      rw [List.append_nil] at htokens
      exact ⟨d, htokens.symm, hd, hdepth, htree.symm⟩
    | cons t rest =>
      dsimp only at h
      split_ifs at h
  · rintro ⟨d, htokens, hd, hdepth, htree⟩
    have hstands : Stands d (Token.scan source) [] :=
      ⟨hd, Or.inl rfl, by rw [List.append_nil, htokens]⟩
    obtain ⟨hlt, hs⟩ := hread.mpr ⟨d, hstands, hdepth, htree.symm⟩
    rw [parseWithin, hs]
    rfl

theorem parseWithin_of_atom {source : String} {a : Derivation .atom}
    (htokens : a.tokens = Token.scan source) (ha : a.WellFormed []) (hdepth : a.depth ≤ depth) :
    parseWithin depth source = .ok a.tree :=
  parseWithin_eq_ok_iff.mpr ⟨.only (.single (.plain a)), htokens, ha, hdepth, rfl⟩

theorem parseWithin_of_leaf {source : String} {t : Token} {s : CharSet}
    (hscan : Token.scan source = [t]) (h : t.Leaf s) : parseWithin depth source = .ok (.set s) :=
  parseWithin_of_atom (a := .leaf t s) (by rw [hscan]; rfl) h (Nat.zero_le _)

theorem parseWithin_of_bracketed {source : String} {opened : Token} {inside : List Token}
    {s : CharSet} (hscan : Token.scan source = opened :: inside)
    (hkind : opened.kind = .bracketOpen) (h : Gives (bracketed opened.start inside) (s, [])) :
    parseWithin depth source = .ok (.set s) :=
  parseWithin_of_atom (a := .bracket opened inside s) (by rw [hscan]; rfl) ⟨hkind, h⟩
    (Nat.zero_le _)

/-- Every sequence and every choice in the tree has at least two parts. -/
inductive Branching : Regex → Prop where
  | set (s : CharSet) : Branching (.set s)
  | star {r : Regex} : Branching r → Branching (.star r)
  | plus {r : Regex} : Branching r → Branching (.plus r)
  | maybe {r : Regex} : Branching r → Branching (.maybe r)
  | concat {rs : List Regex} : 2 ≤ rs.length → (∀ r ∈ rs, Branching r) → Branching (.concat rs)
  | alternate {rs : List Regex} :
      2 ≤ rs.length → (∀ r ∈ rs, Branching r) → Branching (.alternate rs)

theorem Branching.apply (h : Branching r) (q : Quantifier) : Branching (q.apply r) := by
  cases q with
  | star => exact h.star
  | plus => exact h.plus
  | question => exact h.maybe

theorem branching_tree {σ : Symbol} (d : Derivation σ) :
    Branching d.tree ∧ ∀ r ∈ d.trees, Branching r := by
  induction d with
  | leaf t s => exact ⟨.set s, fun _ hr ↦ absurd hr List.not_mem_nil⟩
  | bracket opened inside s => exact ⟨.set s, fun _ hr ↦ absurd hr List.not_mem_nil⟩
  | group opened inner closed ih => exact ⟨ih.1, fun _ hr ↦ absurd hr List.not_mem_nil⟩
  | plain a ih => exact ⟨ih.1, fun _ hr ↦ absurd hr List.not_mem_nil⟩
  | quantified a q t ih => exact ⟨ih.1.apply q, fun _ hr ↦ absurd hr List.not_mem_nil⟩
  | single i ih => exact ⟨ih.1, List.forall_mem_singleton.mpr ih.1⟩
  | next i rest ih ihrest =>
    have hparts := List.forall_mem_cons.mpr ⟨ih.1, ihrest.2⟩
    have hpos := List.length_pos_iff.mpr (trees_sequence_ne_nil rest)
    exact ⟨.concat (Nat.succ_le_succ hpos) hparts, hparts⟩
  | only s ih => exact ⟨ih.1, List.forall_mem_singleton.mpr ih.1⟩
  | either s bar rest ih ihrest =>
    have hparts := List.forall_mem_cons.mpr ⟨ih.1, ihrest.2⟩
    have hpos := List.length_pos_iff.mpr (trees_alternation_ne_nil rest)
    exact ⟨.alternate (Nat.succ_le_succ hpos) hparts, hparts⟩

/-- A text is read exactly when its tokens, whose texts make up the text, have a derivation with
parentheses nested no deeper than allowed. There is at most one derivation, what is read is its
tree, and that tree has no sequence or choice of fewer than two parts. -/
theorem parse_iff_unique_derivation (depth : Nat) (source : String) :
    (Token.scan source).flatMap Token.text = source.toList ∧
    (∀ r, parseWithin depth source = .ok r ↔
      ∃ d : Derivation .alternation, d.tokens = Token.scan source ∧ d.WellFormed [] ∧
        d.depth ≤ depth ∧ d.tree = r) ∧
    (∀ d d' : Derivation .alternation, d.tokens = Token.scan source → d.WellFormed [] →
      d'.tokens = Token.scan source → d'.WellFormed [] → d = d') ∧
    ∀ r, parseWithin depth source = .ok r → Branching r := by
  refine ⟨Token.flatMap_text_scanFrom 0 source.toList, fun r ↦ parseWithin_eq_ok_iff, ?_, ?_⟩
  · intro d d' htokens hd htokens' hd'
    exact Derivation.eq_of_tokens_eq hd hd' (htokens.trans htokens'.symm)
  · intro r h
    obtain ⟨d, _, _, _, rfl⟩ := parseWithin_eq_ok_iff.mp h
    exact (branching_tree d).1

end Grammar

end SignalRegex
