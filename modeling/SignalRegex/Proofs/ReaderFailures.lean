import SignalRegex.Proofs.GrammarReading

/-!
Where the reading of a pattern fails.

Tokens are followed from place to place: how many parentheses are open there, and whether a class is
(`Place`). A phrase that is read leads back to the place where it starts (`behind_tokens`), so a
reader that fails has read some tokens, stands at the place they lead to, and is stuck there for one
reason (`Stuck`).
-/

set_option autoImplicit false

namespace SignalRegex

open Regex

namespace Grammar

/-- What is open at some place of a pattern: the parentheses, the last one first, and perhaps a
class, whose first item may follow a caret. -/
inductive Place where
  | outside (groups : List Token)
  | bracket (groups : List Token)
  | caret (groups : List Token)
  | inside (groups : List Token)

namespace Place

/-- The place behind a token. -/
def next : Place → Token → Place
  | outside groups, t =>
    match t.kind with
    | .parenOpen => outside (t :: groups)
    | .parenClose => outside groups.tail
    | .bracketOpen => bracket groups
    | _ => outside groups
  | bracket groups, t => if t.kind = .caret then caret groups else inside groups
  | caret groups, _ => inside groups
  | inside groups, t => if t.kind = .bracketClose then outside groups else inside groups

/-- The place behind some tokens. -/
def behind (p : Place) (ts : List Token) : Place :=
  ts.foldl next p

def groups : Place → List Token
  | outside groups | bracket groups | caret groups | inside groups => groups

variable {p : Place} {t : Token} {ts us : List Token} {gs : List Token}

@[simp] theorem behind_nil : p.behind [] = p := rfl

@[simp] theorem behind_cons : p.behind (t :: ts) = (p.next t).behind ts := rfl

@[simp] theorem behind_append : p.behind (ts ++ us) = (p.behind ts).behind us :=
  List.foldl_append

theorem next_open (h : t.kind = .parenOpen) : (outside gs).next t = outside (t :: gs) := by
  simp [next, h]

theorem next_close (h : t.kind = .parenClose) : (outside gs).next t = outside gs.tail := by
  simp [next, h]

theorem next_bracket (h : t.kind = .bracketOpen) : (outside gs).next t = bracket gs := by
  simp [next, h]

theorem next_other (h : t.kind ∉ [.parenOpen, .parenClose, .bracketOpen]) :
    (outside gs).next t = outside gs := by
  cases hkind : t.kind <;> simp_all [next]

/-- A class goes on up to the next closing bracket. -/
theorem behind_inside (hts : ∀ t ∈ ts, t.kind ≠ .bracketClose) (h : t.kind = .bracketClose) :
    (inside gs).behind (ts ++ [t]) = outside gs := by
  induction ts with
  | nil => simp [next, h]
  | cons u ts ih =>
    rw [List.forall_mem_cons] at hts
    rw [List.cons_append, behind_cons, next, if_neg hts.1, ih hts.2]

theorem mem_groups_next {u : Token} (h : t ∈ (p.next u).groups) : t = u ∨ t ∈ p.groups := by
  cases p with
  | outside gs =>
    unfold next at h
    dsimp only at h
    split at h
    · exact List.mem_cons.mp h
    · exact Or.inr (List.mem_of_mem_tail h)
    · exact Or.inr h
    · exact Or.inr h
  | bracket gs =>
    rw [next] at h
    split_ifs at h <;> exact Or.inr h
  | caret gs => exact Or.inr h
  | inside gs =>
    rw [next] at h
    split_ifs at h <;> exact Or.inr h

/-- The parentheses that are open somewhere are among the tokens in front of it. -/
theorem mem_of_mem_groups (h : t ∈ (p.behind ts).groups) : t ∈ ts ∨ t ∈ p.groups := by
  induction ts generalizing p with
  | nil => exact Or.inr h
  | cons u ts ih =>
    rcases ih h with h | h
    · exact Or.inl (List.mem_cons_of_mem _ h)
    · exact (mem_groups_next h).imp_left fun heq ↦ List.mem_cons.mpr (Or.inl heq)

end Place

variable {ts inside after gs : List Token} {t : Token} {s : CharSet} {opened : Nat}

theorem behind_of_gives_classSet {negated : Bool} {p : Place}
    (hp : ∀ t rest, ts = t :: rest → p.next t = .inside gs)
    (h : Gives (classSet opened negated ts) (s, [])) : p.behind ts = .outside gs := by
  obtain ⟨u, span, _, _, hspan, _⟩ := gives_classSet.mp h
  obtain ⟨first, body, rfl, rfl, hu, hbody⟩ := classSpan_eq_iff.mp hspan
  rw [List.cons_append, Place.behind_cons, hp first _ rfl, Place.behind_inside hbody hu]

/-- A class that is read leads out of its brackets. -/
theorem behind_of_gives_bracketed (h : Gives (bracketed opened inside) (s, [])) :
    (Place.bracket gs).behind inside = .outside gs := by
  rcases gives_bracketed.mp h with ⟨hcaret, hclass⟩ | ⟨t, rest, rfl, hkind, hclass⟩
  · refine behind_of_gives_classSet (fun t rest heq ↦ ?_) hclass
    rw [heq, startsWith_cons] at hcaret
    rw [Place.next, if_neg hcaret]
  · rw [Place.behind_cons, Place.next, if_pos hkind]
    exact behind_of_gives_classSet (fun t rest heq ↦ rfl) hclass

/-- A phrase leads back to the place where it starts. -/
theorem behind_tokens {σ : Symbol} {d : Derivation σ} (h : d.WellFormed after) :
    (Place.outside gs).behind d.tokens = .outside gs := by
  induction d generalizing after gs with
  | leaf t s =>
    have hopens : Opens t := Or.inr (Or.inr ⟨s, h⟩)
    refine Place.next_other fun hmem ↦ ?_
    simp only [List.mem_cons, List.not_mem_nil, or_false] at hmem
    rcases hmem with hkind | hkind | hkind
    · exact (Derivation.leaf_kind_ne h).1 hkind
    · exact hopens.kind_not_mem (by simp [hkind])
    · exact (Derivation.leaf_kind_ne h).2 hkind
  | bracket opened inside s =>
    rw [Derivation.tokens, Place.behind_cons, Place.next_bracket h.1, behind_of_gives_bracketed h.2]
  | group opened inner closed ih =>
    obtain ⟨hopened, hinner, hclosed⟩ := h
    rw [Derivation.tokens, Place.behind_cons, Place.next_open hopened, Place.behind_append,
      ih hinner]
    exact Place.next_close hclosed
  | plain a ih => exact ih h
  | quantified a q t ih =>
    obtain ⟨ha, hkind, _⟩ := h
    rw [Derivation.tokens, Place.behind_append, ih ha]
    refine Place.next_other ?_
    rw [hkind]
    cases q <;> decide
  | single i ih => exact ih h
  | next i rest ih ihrest =>
    rw [Derivation.tokens, Place.behind_append, ih h.1, ihrest h.2.2]
  | only s ih => exact ih h
  | either s bar rest ih ihrest =>
    obtain ⟨hs, hbar, hrest⟩ := h
    have hother : (Place.outside gs).next bar = .outside gs :=
      Place.next_other (by rw [hbar]; decide)
    rw [Derivation.tokens, Place.behind_append, ih hs, Place.behind_cons, hother, ihrest hrest]

/-! ### Reasons to fail -/

/-- Why reading fails at the given tokens with some parentheses open, and the error it answers. -/
inductive Stuck (sourceEnd limit : Nat) (groups : List Token) : List Token → CompileError → Prop
  | expected {ts : List Token} (h : sequenceEnds ts = true) :
      Stuck sourceEnd limit groups ts (.malformed (offset sourceEnd ts) .expectedExpression)
  | anchor {t : Token} {ts : List Token} (h : t.kind = .caret ∨ t.kind = .dollar) :
      Stuck sourceEnd limit groups (t :: ts) (.unsupported t.start .anchor)
  | bareQuantifier {t : Token} {ts : List Token} (q : Quantifier) (h : t.kind = q.kind) :
      Stuck sourceEnd limit groups (t :: ts) (.malformed t.start .nothingToRepeat)
  | modifier {t u : Token} {ts : List Token} (h : t.kind = .parenOpen) (hu : u.kind = .question) :
      Stuck sourceEnd limit groups (t :: u :: ts) (.unsupported u.start .groupModifier)
  | tooDeep {t : Token} {ts : List Token} (h : t.kind = .parenOpen)
      (hlimit : groups.length = limit) :
      Stuck sourceEnd limit groups (t :: ts) (.malformed t.start .nestedTooDeeply)
  | badClass {t : Token} {ts : List Token} {e : CompileError} (h : t.kind = .bracketOpen)
      (hclass : bracketed t.start ts = .error e) : Stuck sourceEnd limit groups (t :: ts) e
  | badLiteral {t : Token} {ts : List Token} {e : CompileError} (h : t.literal = .error e) :
      Stuck sourceEnd limit groups (t :: ts) e
  | badCodePoint {t : Token} {ts : List Token} {cp : Nat} {e : CompileError}
      (h : t.literal = .ok cp) (hrange : ClassItem.liftRange (CharSet.single cp) = .error e) :
      Stuck sourceEnd limit groups (t :: ts) e
  | bound {t : Token} {ts : List Token} (h : StartsBound (t :: ts)) :
      Stuck sourceEnd limit groups (t :: ts) (.unsupported t.start .boundedRepetition)
  | lazyQuantifier {t : Token} {ts : List Token} (h : t.kind = .question) :
      Stuck sourceEnd limit groups (t :: ts) (.unsupported t.start .lazyQuantifier)
  | secondQuantifier {t : Token} {ts : List Token} (h : t.kind = .star ∨ t.kind = .plus) :
      Stuck sourceEnd limit groups (t :: ts) (.malformed t.start .multipleRepeat)
  | unterminated {t : Token} {ts : List Token} (h : groups.head? = some t) :
      Stuck sourceEnd limit groups ts (.malformed t.start .unterminatedGroup)
  | unbalanced {t : Token} {ts : List Token} (h : t.kind = .parenClose) (hgroups : groups = []) :
      Stuck sourceEnd limit groups (t :: ts) (.malformed t.start .unbalancedParenthesis)

/-- Reading goes on for some tokens, and is stuck behind them. -/
def Fails (sourceEnd limit : Nat) (groups ts : List Token) (e : CompileError) : Prop :=
  ∃ front rest groups', ts = front ++ rest ∧
    (Place.outside groups).behind front = .outside groups' ∧
      Stuck sourceEnd limit groups' rest e

variable {sourceEnd limit depth : Nat} {groups groups' rest : List Token} {e : CompileError}
  {r : Regex} {nested : Nat → TokenReader Regex} {read : TokenReader Regex}

theorem Stuck.fails (h : Stuck sourceEnd limit groups ts e) : Fails sourceEnd limit groups ts e :=
  ⟨[], ts, groups, rfl, rfl, h⟩

theorem Fails.behind {front : List Token}
    (hfront : (Place.outside groups).behind front = .outside groups')
    (h : Fails sourceEnd limit groups' ts e) : Fails sourceEnd limit groups (front ++ ts) e := by
  obtain ⟨more, rest, last, rfl, hmore, hstuck⟩ := h
  refine ⟨front ++ more, rest, last, (List.append_assoc ..).symm, ?_, hstuck⟩
  rw [Place.behind_append, hfront, hmore]

theorem Fails.behind_stands {σ : Symbol} {d : Derivation σ} (hd : Stands d ts rest)
    (h : Fails sourceEnd limit groups rest e) : Fails sourceEnd limit groups ts e :=
  hd.tokens_eq ▸ h.behind (behind_tokens hd.wellFormed)

/-! ### Quantifiers -/

theorem stuck_of_rejectRepetition (h : rejectRepetition ts = .error e) :
    Stuck sourceEnd limit groups ts e := by
  cases ts with
  | nil => cases h
  | cons t ts =>
    unfold rejectRepetition at h
    dsimp only at h
    split_ifs at h with hbound
    obtain rfl := Except.error.inj h
    exact .bound ⟨startsWith_cons.mpr hbound.1, hbound.2⟩

theorem stuck_of_rejectSecondQuantifier (h : rejectSecondQuantifier ts = .error e) :
    Stuck sourceEnd limit groups ts e := by
  cases ts with
  | nil => cases h
  | cons t ts =>
    unfold rejectSecondQuantifier at h
    dsimp only at h
    split at h
    · obtain rfl := Except.error.inj h
      exact .lazyQuantifier ‹_›
    · obtain rfl := Except.error.inj h
      exact .secondQuantifier (Or.inl ‹_›)
    · obtain rfl := Except.error.inj h
      exact .secondQuantifier (Or.inr ‹_›)
    · exact stuck_of_rejectRepetition h

theorem fails_of_quantify (h : quantify r ts = .error e) : Fails sourceEnd limit groups ts e := by
  cases ts with
  | nil => cases h
  | cons t ts =>
    rcases bind_eq_error_iff.mp h with h | ⟨_, _, h⟩
    · exact (stuck_of_rejectRepetition h).fails
    · cases hq : r.quantified? t.kind with
      | none =>
        rw [hq] at h
        cases h
      | some q =>
        rw [hq] at h
        obtain ⟨n, hkind, _⟩ := quantified?_eq_some_iff.mp hq
        have hother : (Place.outside groups).behind [t] = .outside groups :=
          Place.next_other (by rw [hkind]; cases n <;> decide)
        have hsecond := eq_error_of_bind h fun _ ↦ ⟨_, rfl⟩
        exact (stuck_of_rejectSecondQuantifier hsecond).fails.behind hother

/-! ### Atoms and items -/

/-- The reader fails as a reader with some parentheses open does. -/
def FailsStuck (read : TokenReader Regex) (sourceEnd limit : Nat) (groups : List Token) : Prop :=
  ∀ ts e, read ts = .error e → Fails sourceEnd limit groups ts e

/-- What is read behind an opening parenthesis fails as a reader in front of it does. -/
def FailsInside (nested : Nat → TokenReader Regex) (sourceEnd limit : Nat)
    (groups : List Token) : Prop :=
  ∀ t ts e, t.kind = .parenOpen → nested t.start ts = .error e →
    Fails sourceEnd limit groups (t :: ts) e

theorem eq_of_closeGroup (h : closeGroup opened ts = .error e) :
    e = .malformed opened .unterminatedGroup := by
  cases ts with
  | nil => exact (Except.error.inj h).symm
  | cons t ts =>
    unfold closeGroup at h
    dsimp only at h
    split_ifs at h
    exact (Except.error.inj h).symm

theorem fails_of_group (hkind : t.kind = .parenOpen) (hinside : ReadsInside nested depth)
    (hnested : FailsInside nested sourceEnd limit groups)
    (h : group nested t.start ts = .error e) : Fails sourceEnd limit groups (t :: ts) e := by
  unfold group at h
  split_ifs at h with hquestion
  · cases ts with
    | nil => exact absurd hquestion not_startsWith_nil
    | cons u ts =>
      obtain rfl := Except.error.inj h
      exact (Stuck.modifier hkind (startsWith_cons.mp hquestion)).fails
  · rcases bind_eq_error_iff.mp h with h | ⟨⟨⟨r, rest⟩, hlt⟩, hread, h⟩
    · exact hnested t ts e hkind h
    · obtain ⟨d, hd, _, _⟩ := (hinside _ _ _ _).mp ⟨hlt, hread⟩
      obtain rfl := eq_of_closeGroup (eq_error_of_bind h fun _ ↦ ⟨_, rfl⟩)
      have hopened : (Place.outside groups).behind [t] = .outside (t :: groups) :=
        Place.next_open hkind
      exact ((Stuck.unterminated rfl).fails.behind_stands hd).behind hopened

theorem fails_of_atom (hinside : ReadsInside nested depth)
    (hnested : FailsInside nested sourceEnd limit groups) :
    FailsStuck (Regex.atom sourceEnd nested) sourceEnd limit groups := by
  intro ts e h
  cases ts with
  | nil =>
    obtain rfl := Except.error.inj h
    exact (Stuck.expected rfl).fails
  | cons t ts =>
    cases hkind : t.kind with
    | parenOpen =>
      simp only [Regex.atom, hkind] at h
      exact fails_of_group hkind hinside hnested (eq_error_of_bind h fun _ ↦ ⟨_, rfl⟩)
    | bracketOpen =>
      simp only [Regex.atom, hkind] at h
      exact (Stuck.badClass hkind (eq_error_of_bind h fun _ ↦ ⟨_, rfl⟩)).fails
    | dot => simp [Regex.atom, hkind] at h
    | classEscape s => simp [Regex.atom, hkind] at h
    | caret =>
      simp only [Regex.atom, hkind, Except.error.injEq] at h
      exact h ▸ (Stuck.anchor (Or.inl hkind)).fails
    | dollar =>
      simp only [Regex.atom, hkind, Except.error.injEq] at h
      exact h ▸ (Stuck.anchor (Or.inr hkind)).fails
    | star =>
      simp only [Regex.atom, hkind, Except.error.injEq] at h
      exact h ▸ (Stuck.bareQuantifier .star hkind).fails
    | plus =>
      simp only [Regex.atom, hkind, Except.error.injEq] at h
      exact h ▸ (Stuck.bareQuantifier .plus hkind).fails
    | question =>
      simp only [Regex.atom, hkind, Except.error.injEq] at h
      exact h ▸ (Stuck.bareQuantifier .question hkind).fails
    | pipe | parenClose =>
      simp only [Regex.atom, hkind, Except.error.injEq] at h
      exact h ▸ (Stuck.expected (sequenceEnds_iff.mpr (by simp [hkind]))).fails
    | bracketClose | braceOpen | braceClose | dash | char | hexEscape | unicodeEscape | escape |
      incomplete =>
      simp only [Regex.atom, hkind] at h
      rcases bind_eq_error_iff.mp h with h | ⟨cp, hcp, h⟩
      · exact (Stuck.badLiteral h).fails
      · exact (Stuck.badCodePoint hcp (eq_error_of_bind h fun _ ↦ ⟨_, rfl⟩)).fails

/-- A step behind a phrase fails where the phrase does, or on what it leaves. -/
theorem fails_of_bind {σ : Symbol} {β : Type} {next : Parsed Regex ts → Except CompileError β}
    (hreads : ReadsPhrases read σ depth) (hfails : FailsStuck read sourceEnd limit groups)
    (hnext : ∀ r rest hlt, next ⟨(r, rest), hlt⟩ = .error e →
      Fails sourceEnd limit groups rest e)
    (h : read ts >>= next = .error e) : Fails sourceEnd limit groups ts e := by
  rcases bind_eq_error_iff.mp h with h | ⟨⟨⟨r, rest⟩, hlt⟩, hread, h⟩
  · exact hfails ts e h
  · obtain ⟨d, hd, _, _⟩ := (hreads _ _ _).mp ⟨hlt, hread⟩
    exact (hnext r rest hlt h).behind_stands hd

theorem fails_of_item (hatom : ReadsPhrases (Regex.atom sourceEnd nested) .atom depth)
    (hfails : FailsStuck (Regex.atom sourceEnd nested) sourceEnd limit groups) :
    FailsStuck (Regex.item sourceEnd nested) sourceEnd limit groups := by
  intro ts e h
  refine fails_of_bind hatom hfails (fun r rest hlt h ↦ ?_) h
  exact fails_of_quantify (eq_error_of_bind h fun _ ↦ ⟨_, rfl⟩)

/-! ### Sequences and choices -/

theorem fails_of_items (hitem : ReadsPhrases read .item depth)
    (hfails : FailsStuck read sourceEnd limit groups) (ts : List Token) (e : CompileError)
    (h : items read ts = .error e) : Fails sourceEnd limit groups ts e := by
  rw [items] at h
  split_ifs at h with hends
  · cases h
  · refine fails_of_bind hitem hfails (fun r rest hlt h ↦ ?_) h
    exact fails_of_items hitem hfails rest e (eq_error_of_bind h fun _ ↦ ⟨_, rfl⟩)
termination_by ts.length

theorem fails_of_sequence (hitem : ReadsPhrases read .item depth)
    (hfails : FailsStuck read sourceEnd limit groups) :
    FailsStuck (Regex.sequence sourceEnd read) sourceEnd limit groups := by
  intro ts e h
  unfold Regex.sequence at h
  split_ifs at h with hends
  · obtain rfl := Except.error.inj h
    exact (Stuck.expected hends).fails
  · refine fails_of_bind hitem hfails (fun r rest hlt h ↦ ?_) h
    exact fails_of_items hitem hfails rest e (eq_error_of_bind h fun _ ↦ ⟨_, rfl⟩)

theorem fails_of_choices (hsequence : ReadsPhrases read .sequence depth)
    (hfails : FailsStuck read sourceEnd limit groups) : ∀ (ts : List Token) (e : CompileError),
      choices read ts = .error e → Fails sourceEnd limit groups ts e
  | [], e, h => by
    rw [choices] at h
    cases h
  | t :: ts, e, h => by
    rw [choices] at h
    split_ifs at h with hbar
    have hother : (Place.outside groups).behind [t] = .outside groups :=
      Place.next_other (by rw [hbar]; decide)
    refine (fails_of_bind hsequence hfails (fun r rest hlt h ↦ ?_) h).behind hother
    exact fails_of_choices hsequence hfails rest e (eq_error_of_bind h fun _ ↦ ⟨_, rfl⟩)
termination_by ts => ts.length
decreasing_by exact Nat.lt_succ_of_lt hlt

theorem fails_of_alternation
    (hsequence : ReadsPhrases (Regex.sequence sourceEnd read) .sequence depth)
    (hfails : FailsStuck (Regex.sequence sourceEnd read) sourceEnd limit groups) :
    FailsStuck (Regex.alternation sourceEnd read) sourceEnd limit groups := by
  intro ts e h
  refine fails_of_bind hsequence hfails (fun r rest hlt h ↦ ?_) h
  exact fails_of_choices hsequence hfails rest e (eq_error_of_bind h fun _ ↦ ⟨_, rfl⟩)

/-! ### Patterns -/

theorem failsStuck_of_inside (hinside : ReadsInside nested depth)
    (hnested : FailsInside nested sourceEnd limit groups) :
    FailsStuck (Regex.alternation sourceEnd (Regex.item sourceEnd nested)) sourceEnd limit
      groups := by
  have hatom : ReadsPhrases (Regex.atom sourceEnd nested) .atom depth := readsPhrases_atom hinside
  have hitem := readsPhrases_item hatom
  have hfails := fails_of_item hatom (fails_of_atom hinside hnested)
  exact fails_of_alternation (readsPhrases_sequence hitem) (fails_of_sequence hitem hfails)

/-- A reader that may go `depth` further down fails at the limit where that is used up. -/
theorem failsStuck_nestedWithin (sourceEnd depth : Nat) {groups : List Token}
    (hlimit : groups.length + depth = limit) :
    FailsStuck (nestedWithin sourceEnd depth) sourceEnd limit groups := by
  induction depth generalizing groups with
  | zero =>
    refine failsStuck_of_inside readsInside_tooDeep fun t ts e hkind h ↦ ?_
    obtain rfl := Except.error.inj h
    exact (Stuck.tooDeep hkind hlimit).fails
  | succ depth ih =>
    have hinside := readsInside_of_readsPhrases (readsPhrases_nestedWithin sourceEnd depth)
    refine failsStuck_of_inside hinside fun t ts e hkind h ↦ ?_
    have hopened : (Place.outside groups).behind [t] = .outside (t :: groups) :=
      Place.next_open hkind
    exact (ih (by rw [List.length_cons]; omega) ts e h).behind hopened

/-- A pattern that is not read is read up to some place, and is stuck there. -/
theorem fails_of_parseWithin {source : String} (h : parseWithin limit source = .error e) :
    Fails (byteLength source.toList) limit [] (Token.scan source) e := by
  rcases bind_eq_error_iff.mp h with h | ⟨⟨⟨r, rest⟩, hlt⟩, hread, h⟩
  · have hlimit : ([] : List Token).length + limit = limit := Nat.zero_add limit
    exact failsStuck_nestedWithin _ limit hlimit _ e h
  · obtain ⟨d, hd, _, _⟩ := (readsPhrases_nestedWithin _ _ _ _ _).mp ⟨hlt, hread⟩
    cases rest with
    | nil => cases h
    | cons t rest =>
      -- behind a choice stands nothing but a closing parenthesis
      have hclose : t.kind = .parenClose :=
        startsWith_cons.mp (hd.follows.resolve_left (List.cons_ne_nil _ _))
      dsimp only at h
      rw [if_pos hclose] at h
      obtain rfl := Except.error.inj h
      exact (Stuck.unbalanced hclose rfl).fails.behind_stands hd

end Grammar

end SignalRegex
