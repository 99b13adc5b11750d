import Mathlib.Data.List.Forall2
import SignalRegex.Proofs.ScannedTokens

/-!
The tokens of a text are its longest matches, and they tile it.

The kinds of tokens have rules, each of them a class of characters for every place (`rules`). A text
is cut from its start into the longest pieces that a rule matches, and what no rule matches is an
incomplete escape (`Cuts`). There is one such cutting (`cuts_iff`). The tokens behind any of them
are the tokens of the text behind it (`scanFrom_of_eq_append`), so the place of a token is that of
its text, and its kind can be read off its text and what follows (`Written`).
-/

set_option autoImplicit false

namespace SignalRegex

theorem byteLength_eq_utf8ByteSize (text : List Char) :
    byteLength text = (String.ofList text).utf8ByteSize := by
  induction text with
  | nil => rfl
  | cons c text ih =>
    rw [String.ofList_cons, String.utf8ByteSize_append, String.utf8ByteSize_singleton, ← ih]
    rfl

theorem byteLength_toList (source : String) : byteLength source.toList = source.utf8ByteSize := by
  rw [byteLength_eq_utf8ByteSize, String.ofList_toList]

/-- A place behind some of the characters is a boundary. -/
theorem isValid_byteLength {source : String} {front back : List Char}
    (h : source.toList = front ++ back) :
    String.Pos.Raw.IsValid source ⟨byteLength front⟩ := by
  refine String.Pos.Raw.isValid_iff_exists_append.mpr
    ⟨String.ofList front, String.ofList back, ?_, ?_⟩
  · rw [← String.ofList_append, ← h, String.ofList_toList]
  · rw [byteLength_eq_utf8ByteSize]
    rfl

theorem byteLength_cons_pos (c : Char) (text : List Char) : 0 < byteLength (c :: text) :=
  Nat.add_pos_left c.utf8Size_pos _

namespace Token

variable {c : Char} {kind kind' : Kind} {text rest : List Char} {start : Nat}

/-! ### Rules -/

/-- A kind of tokens, with the characters that may stand at each place of their texts. -/
structure Rule where
  kind : Kind
  classes : List (Char → Bool)

/-- The text has a character of its class at each place. -/
def Rule.Matches (r : Rule) (text : List Char) : Prop :=
  List.Forall₂ (fun p c ↦ p c = true) r.classes text

/-- The characters with a kind of their own. -/
def punctuation : List (Kind × Char) :=
  [(.parenOpen, '('), (.parenClose, ')'), (.bracketOpen, '['), (.bracketClose, ']'),
    (.braceOpen, '\x7b'), (.braceClose, '\x7d'), (.caret, '^'), (.dollar, '$'), (.dot, '.'),
    (.pipe, '|'), (.star, '*'), (.plus, '+'), (.question, '?'), (.dash, '-')]

def rules : List Rule :=
  (punctuation.map fun (kind, c) ↦ ⟨kind, [(· == c)]⟩) ++
  ([.digit, .word, .space].map fun s ↦ ⟨.classEscape s, [(· == '\\'), (· == s.letter)]⟩) ++
  [⟨.hexEscape, (· == '\\') :: (· == 'x') :: List.replicate 2 Text.isHexDigit⟩,
    ⟨.unicodeEscape, (· == '\\') :: (· == 'u') :: List.replicate 6 Text.isHexDigit⟩,
    ⟨.escape, [(· == '\\'), (!escapeLetters.contains ·)]⟩,
    ⟨.incomplete, [(· == '\\'), (['x', 'u'].contains ·)]⟩,
    ⟨.char, [(!('\\' :: punctuation.map Prod.snd).contains ·)]⟩]

/-- A rule of the kind matches the text. -/
def Matched (kind : Kind) (text : List Char) : Prop :=
  ∃ r ∈ rules, r.kind = kind ∧ r.Matches text

/-- The longest piece that a rule matches at the start of a text, with its kind and what is left. -/
structure Longest (source : List Char) (kind : Kind) (text rest : List Char) : Prop where
  eq_append : source = text ++ rest
  matched : Matched kind text
  length_le : ∀ kind' text', Matched kind' text' → text' <+: source → text'.length ≤ text.length

/-- The tokens are cut from a text at the given place: each is the longest piece that a rule
matches. Where no rule matches, some of the text is passed over as an incomplete escape. -/
inductive Cuts : Nat → List Char → List Token → Prop
  | nil (start : Nat) : Cuts start [] []
  | longest {start : Nat} {source rest : List Char} {t : Token} {ts : List Token}
      (h : Longest source t.kind t.text rest) (hstart : t.start = start)
      (hrest : Cuts t.stop rest ts) : Cuts start source (t :: ts)
  | unmatched {start : Nat} {rest : List Char} {t : Token} {ts : List Token}
      (h : ∀ kind text, Matched kind text → ¬ text <+: t.text ++ rest)
      (hkind : t.kind = .incomplete) (hstart : t.start = start)
      (hrest : Cuts t.stop rest ts) : Cuts start (t.text ++ rest) (t :: ts)

/-! ### Rules and kinds -/

theorem plainKind_cases (c : Char) : (plainKind c, c) ∈ punctuation ∨
    plainKind c = .char ∧ ∀ kind, (kind, c) ∉ punctuation := by
  unfold plainKind
  split
  case h_15 => exact Or.inr ⟨rfl, fun kind hmem ↦ by simp_all [punctuation]⟩
  all_goals exact Or.inl (by decide)

theorem plainKind_of_mem_punctuation (h : (kind, c) ∈ punctuation) :
    c ≠ '\\' ∧ plainKind c = kind := by
  simp only [punctuation, List.mem_cons, Prod.mk.injEq, List.not_mem_nil, or_false] at h
  rcases h with h | h | h | h | h | h | h | h | h | h | h | h | h | h <;>
    exact h.1 ▸ h.2 ▸ ⟨by decide, rfl⟩

theorem not_mem_punctuation_iff : (∀ kind, (kind, c) ∉ punctuation) ↔
    c ∉ punctuation.map Prod.snd := by
  simp [List.mem_map]

section Matches

variable {p : Char → Bool} {classes : List (Char → Bool)} {d : Char}

theorem matches_one : Rule.Matches ⟨kind, [p]⟩ text ↔ ∃ c, p c = true ∧ text = [c] := by
  simp [Rule.Matches, List.forall₂_cons_left_iff]

theorem matches_char : Rule.Matches ⟨kind, (· == d) :: classes⟩ text ↔
    ∃ more, text = d :: more ∧ Rule.Matches ⟨kind, classes⟩ more := by
  simp [Rule.Matches, List.forall₂_cons_left_iff, and_comm]

theorem matches_replicate {n : Nat} : Rule.Matches ⟨kind, List.replicate n p⟩ text ↔
    text.length = n ∧ text.all p = true := by
  unfold Rule.Matches
  induction n generalizing text with
  | zero => simp +contextual
  | succ n ih =>
    rw [List.replicate_succ, List.forall₂_cons_left_iff]
    simp only [ih]
    cases text with
    | nil => simp
    | cons c text => simp [and_left_comm]

end Matches

theorem spells_of_matched (h : Matched kind text) : Spells kind text ∧ text ≠ ['\\'] := by
  obtain ⟨r, hr, rfl, hmatches⟩ := h
  simp only [rules, List.append_assoc, List.mem_append, List.mem_map, List.mem_cons,
    List.not_mem_nil, or_false] at hr
  rcases hr with ⟨⟨kind, d⟩, hmem, rfl⟩ | ⟨s, _, rfl⟩ | rfl | rfl | rfl | rfl | rfl
  · obtain ⟨hd, rfl⟩ := plainKind_of_mem_punctuation hmem
    obtain ⟨c, hc, rfl⟩ := matches_one.mp hmatches
    obtain rfl := beq_iff_eq.mp hc
    exact ⟨.plain hd, by simpa using hd⟩
  · obtain ⟨_, rfl, hmore⟩ := matches_char.mp hmatches
    obtain ⟨c, hc, rfl⟩ := matches_one.mp hmore
    obtain rfl := beq_iff_eq.mp hc
    exact ⟨.shorthand s, by simp⟩
  · obtain ⟨_, rfl, hmore⟩ := matches_char.mp hmatches
    obtain ⟨digits, rfl, hdigits⟩ := matches_char.mp hmore
    obtain ⟨hlength, hall⟩ := matches_replicate.mp hdigits
    exact ⟨.hex hlength hall, by simp⟩
  · obtain ⟨_, rfl, hmore⟩ := matches_char.mp hmatches
    obtain ⟨digits, rfl, hdigits⟩ := matches_char.mp hmore
    obtain ⟨hlength, hall⟩ := matches_replicate.mp hdigits
    exact ⟨.unicode hlength hall, by simp⟩
  · obtain ⟨_, rfl, hmore⟩ := matches_char.mp hmatches
    obtain ⟨c, hc, rfl⟩ := matches_one.mp hmore
    exact ⟨.escape (by simpa using hc), by simp⟩
  · obtain ⟨_, rfl, hmore⟩ := matches_char.mp hmatches
    obtain ⟨c, hc, rfl⟩ := matches_one.mp hmore
    exact ⟨.short (by simpa using hc), by simp⟩
  · obtain ⟨c, hc, rfl⟩ := matches_one.mp hmatches
    have hnot : c ≠ '\\' ∧ c ∉ punctuation.map Prod.snd := by simpa using hc
    rcases plainKind_cases c with hmem | ⟨hkind, _⟩
    · exact absurd (List.mem_map.mpr ⟨_, hmem, rfl⟩) hnot.2
    · exact ⟨hkind ▸ .plain hnot.1, by simpa using hnot.1⟩

theorem matched_of_spells (h : Spells kind text) (hlone : text ≠ ['\\']) : Matched kind text := by
  have hlast {r : Rule} (hr : r ∈ rules.drop 17) : r ∈ rules := List.mem_of_mem_drop hr
  cases h with
  | plain hc =>
    rcases plainKind_cases _ with hmem | ⟨hkind, hnot⟩
    · refine ⟨_, List.mem_append_left _ (List.mem_append_left _ (List.mem_map_of_mem hmem)),
        rfl, ?_⟩
      exact matches_one.mpr ⟨_, beq_self_eq_true _, rfl⟩
    · refine ⟨_, hlast (.tail _ (.tail _ (.tail _ (.tail _ (.head _))))), hkind.symm, ?_⟩
      refine matches_one.mpr ⟨_, ?_, rfl⟩
      simpa using And.intro hc (not_mem_punctuation_iff.mp hnot)
  | hex hlength hall =>
    refine ⟨_, hlast (.head _), rfl, matches_char.mpr ⟨_, rfl, matches_char.mpr ⟨_, rfl, ?_⟩⟩⟩
    exact matches_replicate.mpr ⟨hlength, hall⟩
  | unicode hlength hall =>
    refine ⟨_, hlast (.tail _ (.head _)), rfl,
      matches_char.mpr ⟨_, rfl, matches_char.mpr ⟨_, rfl, ?_⟩⟩⟩
    exact matches_replicate.mpr ⟨hlength, hall⟩
  | shorthand s =>
    have hs : s ∈ [Shorthand.digit, .word, .space] := by cases s <;> decide
    refine ⟨_, List.mem_append_left _ (List.mem_append_right _ (List.mem_map_of_mem hs)), rfl, ?_⟩
    exact matches_char.mpr ⟨_, rfl, matches_one.mpr ⟨_, beq_self_eq_true _, rfl⟩⟩
  | escape hc =>
    refine ⟨_, hlast (.tail _ (.tail _ (.head _))), rfl, matches_char.mpr ⟨_, rfl, ?_⟩⟩
    exact matches_one.mpr ⟨_, by simpa using hc, rfl⟩
  | short hc =>
    refine ⟨_, hlast (.tail _ (.tail _ (.tail _ (.head _)))), rfl, matches_char.mpr ⟨_, rfl, ?_⟩⟩
    exact matches_one.mpr ⟨_, by simpa using hc, rfl⟩
  | lone => exact absurd rfl hlone

/-! ### The longest match -/

/-- The text starts with a number of hexadecimal digits. -/
def StartsWithDigits (n : Nat) (text : List Char) : Prop :=
  ∃ digits rest, text = digits ++ rest ∧ digits.length = n ∧ digits.all Text.isHexDigit = true

theorem startsWithHex_iff {n : Nat} : startsWithHex n text = true ↔ StartsWithDigits n text := by
  constructor
  · intro h
    exact ⟨_, _, (List.take_append_drop n text).symm, digits_of_startsWithHex h⟩
  · rintro ⟨digits, rest, rfl, rfl, hall⟩
    refine startsWithHex_append rest ?_
    rw [startsWithHex, List.take_length, hall, decide_eq_true (Nat.le_refl _), Bool.and_self]

/-- A text of a kind is scanned as one token of that kind. -/
theorem Spells.lexeme_eq {more : List Char} (h : Spells kind (c :: more)) :
    lexeme c more = (kind, more.length) := by
  cases h with
  | plain hc => exact if_neg hc
  | hex hlength hall =>
    have hhex := startsWithHex_iff.mpr ⟨_, [], (List.append_nil _).symm, hlength, hall⟩
    rw [lexeme, if_pos rfl, escapeKind, if_pos hhex, List.length_cons, hlength]
  | unicode hlength hall =>
    have hhex := startsWithHex_iff.mpr ⟨_, [], (List.append_nil _).symm, hlength, hall⟩
    rw [lexeme, if_pos rfl, escapeKind, if_pos hhex, List.length_cons, hlength]
  | shorthand s => cases s <;> rfl
  | escape hc =>
    simp only [escapeLetters, List.mem_cons, List.not_mem_nil, or_false, not_or] at hc
    obtain ⟨hx, hu, hd, hw, hs⟩ := hc
    rw [lexeme, if_pos rfl, escapeKind] <;> first | rfl | assumption
  | short hc => rcases hc with rfl | rfl <;> rfl
  | lone => rfl

theorem Spells.ne_nil (h : Spells kind text) : text ≠ [] := by
  cases h <;> exact List.cons_ne_nil _ _

/-- The text of a token says which kind it has. -/
theorem Spells.unique (h : Spells kind text) (h' : Spells kind' text) : kind = kind' := by
  obtain ⟨c, more, rfl⟩ := List.exists_cons_of_ne_nil h.ne_nil
  exact (Prod.mk.inj (h.lexeme_eq.symm.trans h'.lexeme_eq)).1

theorem one_le_escapeKind (c : Char) (rest : List Char) : 1 ≤ (escapeKind (c :: rest)).2 := by
  generalize hrest : c :: rest = chars
  fun_cases escapeKind chars with
  | case1 => cases hrest
  | _ => decide

theorem length_take_lexeme (c : Char) (rest : List Char) :
    (c :: rest.take (lexeme c rest).2).length = (lexeme c rest).2 + 1 := by
  rw [List.length_cons, List.length_take_of_le (lexeme_le_length c rest)]

/-- What the first token of a text is, and that the others are those of the rest. -/
theorem scanFrom_eq_cons_iff {source : List Char} {t : Token} {ts : List Token} :
    scanFrom start source = t :: ts ↔ ∃ rest, source = t.text ++ rest ∧ t.start = start ∧
      lexeme t.first (t.more ++ rest) = (t.kind, t.more.length) ∧ ts = scanFrom t.stop rest := by
  constructor
  · intro h
    cases source with
    | nil =>
      rw [scanFrom] at h
      cases h
    | cons c source =>
      rw [scanFrom] at h
      obtain ⟨rfl, rfl⟩ := List.cons.inj h
      refine ⟨source.drop (lexeme c source).2, ?_, rfl, ?_, rfl⟩
      · exact congrArg (c :: ·) (List.take_append_drop _ _).symm
      · dsimp only
        rw [List.take_append_drop, List.length_take_of_le (lexeme_le_length c source)]
  · obtain ⟨kind, start', first, more⟩ := t
    rintro ⟨rest, rfl, rfl, hlexeme, rfl⟩
    dsimp only at hlexeme
    change scanFrom start' (first :: (more ++ rest)) = _
    rw [scanFrom, hlexeme, List.take_left, List.drop_left]

/-- No text of a kind at the start of some characters is longer than the token there. -/
theorem Spells.length_le (h : Spells kind text) (hfront : text <+: c :: rest) :
    text.length ≤ (lexeme c rest).2 + 1 := by
  obtain ⟨d, more, rfl⟩ := List.exists_cons_of_ne_nil h.ne_nil
  obtain ⟨rfl, back, rfl⟩ := List.cons_prefix_cons.mp hfront
  have hcomplete (hkind : kind ≠ .incomplete) :
      (d :: more).length ≤ (lexeme d (more ++ back)).2 + 1 := by
    have hlexeme : (lexeme d more).1 ≠ .incomplete := by rwa [h.lexeme_eq]
    rw [lexeme_append back hlexeme, h.lexeme_eq]
    exact Nat.le_refl _
  cases h with
  | plain hc => exact hcomplete (plainKind_ne_of_isEscape rfl d)
  | hex | unicode | shorthand | escape => exact hcomplete nofun
  | short hc => exact Nat.succ_le_succ (one_le_escapeKind _ _)
  | lone => exact Nat.succ_le_succ (Nat.zero_le _)

theorem not_matched_prefix_lone (h : Matched kind text) : ¬ text <+: ['\\'] := by
  obtain ⟨hspells, hlone⟩ := spells_of_matched h
  intro hfront
  obtain ⟨c, more, rfl⟩ := List.exists_cons_of_ne_nil hspells.ne_nil
  obtain ⟨rfl, hmore⟩ := List.cons_prefix_cons.mp hfront
  exact hlone (by rw [List.prefix_nil.mp hmore])

/-- The token at the start of some characters is the longest match there, if there is one. -/
theorem longest_lexeme (hlone : c :: rest ≠ ['\\']) : Longest (c :: rest) (lexeme c rest).1
    (c :: rest.take (lexeme c rest).2) (rest.drop (lexeme c rest).2) := by
  refine ⟨?_, matched_of_spells (spells_lexeme c rest) fun heq ↦ hlone ?_, ?_⟩
  · rw [List.cons_append, List.take_append_drop]
  · obtain ⟨rfl, htake⟩ := List.cons.inj heq
    cases rest with
    | nil => rfl
    | cons d more =>
      have hone : 1 ≤ (lexeme '\\' (d :: more)).2 := one_le_escapeKind d more
      obtain ⟨n, hn⟩ := Nat.exists_eq_add_of_le' hone
      rw [hn] at htake
      cases htake
  · intro kind' text' hmatched hfront
    rw [length_take_lexeme]
    exact (spells_of_matched hmatched).1.length_le hfront

theorem Longest.unique {source text' rest' : List Char} (h : Longest source kind text rest)
    (h' : Longest source kind' text' rest') : kind = kind' ∧ text = text' ∧ rest = rest' := by
  have hlength : text.length = text'.length :=
    Nat.le_antisymm (h'.length_le _ _ h.matched ⟨rest, h.eq_append.symm⟩)
      (h.length_le _ _ h'.matched ⟨rest', h'.eq_append.symm⟩)
  obtain ⟨rfl, rfl⟩ := List.append_inj (h.eq_append.symm.trans h'.eq_append) hlength
  exact ⟨(spells_of_matched h.matched).1.unique (spells_of_matched h'.matched).1, rfl, rfl⟩

theorem cuts_scanFrom (start : Nat) (source : List Char) :
    Cuts start source (scanFrom start source) := by
  fun_induction scanFrom start source with
  | case1 start => exact .nil start
  | case2 start c rest token ih =>
    by_cases hlone : c :: rest = ['\\']
    · obtain ⟨rfl, rfl⟩ := List.cons.inj hlone
      exact .unmatched (t := token) (fun kind text ↦ not_matched_prefix_lone) rfl rfl ih
    · exact .longest (longest_lexeme hlone) rfl ih

/-- A text is cut into its tokens and in no other way. -/
theorem cuts_iff {source : List Char} {ts : List Token} :
    Cuts start source ts ↔ ts = scanFrom start source := by
  constructor
  · intro h
    induction h with
    | nil start => rw [scanFrom]
    | @longest start source rest t ts h hstart _ ih =>
      obtain rfl := h.eq_append
      have hlone : t.text ++ rest ≠ ['\\'] := fun heq ↦
        not_matched_prefix_lone h.matched ⟨rest, heq⟩
      obtain ⟨hkind, htext, _⟩ := h.unique (longest_lexeme hlone)
      have hlength := length_take_lexeme t.first (t.more ++ rest)
      refine (scanFrom_eq_cons_iff.mpr ⟨rest, rfl, hstart, Prod.ext hkind.symm ?_, ih⟩).symm
      exact Nat.succ.inj (hlength.symm.trans (congrArg List.length htext.symm))
    | @unmatched start rest t ts h hkind hstart _ ih =>
      have hlone : t.text ++ rest = ['\\'] := by
        by_contra hne
        have hlongest := longest_lexeme hne
        exact h _ _ hlongest.matched ⟨_, hlongest.eq_append.symm⟩
      obtain ⟨hfirst, hnil⟩ := List.cons.inj hlone
      obtain ⟨hmore, rfl⟩ := List.append_eq_nil_iff.mp hnil
      refine (scanFrom_eq_cons_iff.mpr ⟨[], rfl, hstart, ?_, ih⟩).symm
      rw [hfirst, hmore, hkind]
      rfl
  · rintro rfl
    exact cuts_scanFrom start source

/-! ### Spans -/

/-- The tokens lie between two places, one after the other and none of them empty. -/
def Tiles (start stop : Nat) : List Token → Prop
  | [] => start = stop
  | t :: ts => t.start = start ∧ t.start < t.stop ∧ Tiles t.stop stop ts

theorem start_lt_stop (t : Token) : t.start < t.stop :=
  Nat.lt_add_of_pos_right (byteLength_cons_pos _ _)

theorem tiles_scanFrom (start : Nat) (source : List Char) :
    Tiles start (start + byteLength source) (scanFrom start source) := by
  generalize hscan : scanFrom start source = ts
  induction ts generalizing start source with
  | nil =>
    have htexts := flatMap_text_scanFrom start source
    rw [hscan] at htexts
    subst htexts
    rfl
  | cons t ts ih =>
    obtain ⟨rest, rfl, rfl, _, hts⟩ := scanFrom_eq_cons_iff.mp hscan
    refine ⟨rfl, t.start_lt_stop, ?_⟩
    rw [byteLength_append, ← Nat.add_assoc]
    exact ih _ _ hts.symm

/-- The tokens behind some of them are those of the text behind. -/
theorem scanFrom_of_eq_append {source : List Char} {front back : List Token}
    (h : scanFrom start source = front ++ back) :
    source = front.flatMap Token.text ++ back.flatMap Token.text ∧
      back =
        scanFrom (start + byteLength (front.flatMap Token.text)) (back.flatMap Token.text) := by
  induction front generalizing start source with
  | nil =>
    rw [List.nil_append] at h
    subst h
    rw [flatMap_text_scanFrom]
    exact ⟨rfl, rfl⟩
  | cons t front ih =>
    obtain ⟨rest, rfl, rfl, _, hrest⟩ := scanFrom_eq_cons_iff.mp h
    obtain ⟨rfl, hback⟩ := ih hrest.symm
    rw [List.flatMap_cons, List.append_assoc, byteLength_append, ← Nat.add_assoc]
    exact ⟨rfl, hback⟩

/-! ### Kinds from texts and what follows -/

/-- How a token of the kind is written where the given characters follow. -/
def Written (rest : List Char) : Kind → List Char → Prop
  | .hexEscape, text => ∃ digits, digits.length = 2 ∧ digits.all Text.isHexDigit = true ∧
      text = '\\' :: 'x' :: digits
  | .unicodeEscape, text => ∃ digits, digits.length = 6 ∧ digits.all Text.isHexDigit = true ∧
      text = '\\' :: 'u' :: digits
  | .classEscape s, text => text = ['\\', s.letter]
  | .escape, text => ∃ c ∉ ['x', 'u', 'd', 'w', 's'], text = ['\\', c]
  | .incomplete, text => text = ['\\', 'x'] ∧ ¬ StartsWithDigits 2 rest ∨
      text = ['\\', 'u'] ∧ ¬ StartsWithDigits 6 rest ∨ text = ['\\'] ∧ rest = []
  | .char, text => ∃ c, c ≠ '\\' ∧ (∀ kind, (kind, c) ∉ punctuation) ∧ text = [c]
  | kind, text => ∃ c, (kind, c) ∈ punctuation ∧ text = [c]

theorem Written.spells (h : Written rest kind text) : Spells kind text := by
  cases kind with
  | hexEscape =>
    obtain ⟨digits, hlength, hall, rfl⟩ := h
    exact .hex hlength hall
  | unicodeEscape =>
    obtain ⟨digits, hlength, hall, rfl⟩ := h
    exact .unicode hlength hall
  | classEscape s => exact (show text = _ from h) ▸ .shorthand s
  | escape =>
    obtain ⟨c, hc, rfl⟩ := h
    exact .escape hc
  | incomplete =>
    rcases h with ⟨rfl, _⟩ | ⟨rfl, _⟩ | ⟨rfl, _⟩
    · exact .short (Or.inl rfl)
    · exact .short (Or.inr rfl)
    · exact .lone
  | char =>
    obtain ⟨c, hc, hnot, rfl⟩ := h
    rcases plainKind_cases c with hmem | ⟨hkind, _⟩
    · exact absurd hmem (hnot _)
    · exact hkind ▸ .plain hc
  | _ =>
    obtain ⟨c, hmem, rfl⟩ := h
    obtain ⟨hc, hkind⟩ := plainKind_of_mem_punctuation hmem
    exact hkind ▸ .plain hc

theorem written_plainKind (hc : c ≠ '\\') : Written rest (plainKind c) [c] := by
  rcases plainKind_cases c with hmem | ⟨hkind, hnot⟩
  · generalize hkind : plainKind c = kind at hmem
    cases kind with
    | hexEscape | unicodeEscape | classEscape | escape | incomplete | char =>
      simp [punctuation] at hmem
    | _ => exact ⟨c, hmem, rfl⟩
  · rw [hkind]
    exact ⟨c, hc, hnot, rfl⟩

theorem written_escapeKind (rest : List Char) :
    Written (rest.drop (escapeKind rest).2) (escapeKind rest).1
      ('\\' :: rest.take (escapeKind rest).2) := by
  fun_cases escapeKind rest with
  | case1 => exact Or.inr (Or.inr ⟨rfl, rfl⟩)
  | case2 rest hhex =>
    obtain ⟨hlength, hdigits⟩ := digits_of_startsWithHex hhex
    exact ⟨_, hlength, hdigits, rfl⟩
  | case3 rest hhex => exact Or.inl ⟨rfl, mt startsWithHex_iff.mpr hhex⟩
  | case4 rest hhex =>
    obtain ⟨hlength, hdigits⟩ := digits_of_startsWithHex hhex
    exact ⟨_, hlength, hdigits, rfl⟩
  | case5 rest hhex => exact Or.inr (Or.inl ⟨rfl, mt startsWithHex_iff.mpr hhex⟩)
  | case6 | case7 | case8 => rfl
  | case9 c rest hx hu hd hw hs =>
    refine ⟨c, ?_, rfl⟩
    simp only [List.mem_cons, List.not_mem_nil, or_false, not_or]
    exact ⟨hx, hu, hd, hw, hs⟩

/-- The token at the start of some characters is written as its kind asks for. -/
theorem written_lexeme (c : Char) (rest : List Char) :
    Written (rest.drop (lexeme c rest).2) (lexeme c rest).1 (c :: rest.take (lexeme c rest).2) := by
  unfold lexeme
  split_ifs with hc
  · exact hc ▸ written_escapeKind rest
  · exact written_plainKind hc

theorem written_iff {t : Token} (h : lexeme t.first (t.more ++ rest) = (t.kind, t.more.length)) :
    t.kind = kind ↔ Written rest kind t.text := by
  have hwritten := written_lexeme t.first (t.more ++ rest)
  rw [h, List.take_left, List.drop_left] at hwritten
  constructor
  · rintro rfl
    exact hwritten
  · intro hkind
    exact hwritten.spells.unique hkind.spells

/-- The token stands in the source where it says it does, and its kind is the one that is written
there. -/
theorem exists_written_of_mem_scan {source : String} {t : Token} (h : t ∈ scan source) :
    ∃ front rest, source.toList = front ++ t.text ++ rest ∧ t.start = byteLength front ∧
      ∀ kind, t.kind = kind ↔ Written rest kind t.text := by
  obtain ⟨front, back, hscan⟩ := List.append_of_mem h
  obtain ⟨hsource, hback⟩ := scanFrom_of_eq_append hscan
  obtain ⟨rest, hrest, hstart, hlexeme, _⟩ := scanFrom_eq_cons_iff.mp hback.symm
  refine ⟨front.flatMap Token.text, rest, ?_, ?_, fun kind ↦ written_iff hlexeme⟩
  · rw [hsource, hrest, List.append_assoc]
  · rw [hstart, Nat.zero_add]

/-- A pattern is cut into its longest matches and in no other way. The tokens fill it from its start
to its end without a gap, on the boundaries of its characters, so that their texts make it up, and
each token is of the kind that is written at its place. -/
theorem scan_lossless_and_exact (source : String) :
    (∀ ts, Cuts 0 source.toList ts ↔ ts = scan source) ∧
    Tiles 0 source.utf8ByteSize (scan source) ∧
    (scan source).flatMap Token.text = source.toList ∧
    ∀ t ∈ scan source,
      String.Pos.Raw.IsValid source ⟨t.start⟩ ∧ String.Pos.Raw.IsValid source ⟨t.stop⟩ ∧
      ∃ front rest, source.toList = front ++ t.text ++ rest ∧ t.start = byteLength front ∧
        ∀ kind, t.kind = kind ↔ Written rest kind t.text := by
  have htiles := tiles_scanFrom 0 source.toList
  rw [Nat.zero_add, byteLength_toList] at htiles
  refine ⟨fun ts ↦ cuts_iff, htiles, flatMap_text_scanFrom 0 source.toList, fun t ht ↦ ?_⟩
  obtain ⟨front, rest, hsource, hstart, hkind⟩ := exists_written_of_mem_scan ht
  have hstop : t.stop = byteLength (front ++ t.text) := by
    rw [stop, hstart, byteLength_append]
  refine ⟨?_, ?_, front, rest, hsource, hstart, hkind⟩
  · rw [List.append_assoc] at hsource
    exact hstart ▸ isValid_byteLength hsource
  · exact hstop ▸ isValid_byteLength hsource

end Token

end SignalRegex
