import Mathlib.Data.List.Forall2
import SignalRegex.Proofs.ReaderAnswers
import SignalRegex.Proofs.ScannedTokens
import SignalRegex.Proofs.SetMembership

/-!
What a bracketed class means.

The meaning is said on the texts of the tokens alone: which item a text stands for (`StandsFor`),
which items are taken together (`Taken`), and which code points a piece has (`Piece.Has`). A class
is read in at most one way (`ClassReading.unique`), and the reader fails exactly where the class is
not closed, holds an escape that stands for nothing, or has a malformed range.
-/

set_option autoImplicit false

namespace SignalRegex

open CodeRange (Covers)

theorem Text.exists_readHex? {digits : List Char} (h : digits.all isHexDigit = true) :
    ∃ n, readHex? digits = some n := by
  -- The digits read so far are in the value the fold starts with.
  have hfold : ∀ value, ∃ n,
      digits.foldlM (fun value c ↦ (hexValue? c).map (16 * value + ·)) value = some n := by
    induction digits with
    | nil => exact fun value ↦ ⟨value, rfl⟩
    | cons d digits ih =>
      intro value
      rw [List.all_cons, Bool.and_eq_true] at h
      obtain ⟨v, hv⟩ := Option.isSome_iff_exists.mp h.1
      rw [List.foldlM_cons, hv]
      exact ih h.2 _
  exact hfold 0

theorem toNat_lt_alphabetSize (c : Char) : c.toNat < alphabetSize :=
  (CodeRange.ofChar c).start_lt_alphabetSize

namespace Token

theorem literal_of_not_isEscape {t : Token} (h : t.kind.isEscape = false) :
    t.literal = .ok t.first.toNat := by
  unfold literal
  split <;> simp_all [Kind.isEscape]

theorem escapedCodePoint_lt (c : Char) : escapedCodePoint c < alphabetSize := by
  unfold escapedCodePoint
  split
  case h_8 => exact toNat_lt_alphabetSize c
  all_goals decide

end Token

/-! ### Items -/

/-- An escape that stands for nothing: it is incomplete, or its number is too large. -/
inductive BadEscape : List Char → Prop
  | lone : BadEscape ['\\']
  | short {c : Char} (hc : c = 'x' ∨ c = 'u') : BadEscape ['\\', c]
  | large {c : Char} {digits : List Char} {cp : Nat} (hc : c = 'x' ∨ c = 'u')
      (hread : Text.readHex? digits = some cp) (hcp : alphabetSize ≤ cp) :
      BadEscape ('\\' :: c :: digits)

theorem badEscape_pair_iff {c : Char} : BadEscape ['\\', c] ↔ c = 'x' ∨ c = 'u' := by
  constructor
  · intro h
    cases h with
    | short hc => exact hc
    | large hc => exact hc
  · exact .short

namespace ClassItem

/-- What a text stands for between brackets, at a place of the pattern. -/
inductive StandsFor (position : Nat) : List Char → ClassItem → Prop
  | dash : StandsFor position ['-'] (.dash position)
  | plain {c : Char} (hc : c ≠ '\\') (hdash : c ≠ '-') :
      StandsFor position [c] (.char c.toNat position)
  | number {c : Char} {digits : List Char} {cp : Nat}
      (hlength : c = 'x' ∧ digits.length = 2 ∨ c = 'u' ∧ digits.length = 6)
      (hread : Text.readHex? digits = some cp) (hcp : cp < alphabetSize) :
      StandsFor position ('\\' :: c :: digits) (.char cp position)
  | shorthand (s : Shorthand) : StandsFor position ['\\', s.letter] (.set s.charset position)
  | escape {c : Char} (hc : c ∉ Token.escapeLetters) :
      StandsFor position ['\\', c] (.char (Token.escapedCodePoint c) position)

variable {position : Nat} {text : List Char} {i j : ClassItem} {t : Token}

theorem StandsFor.unique (hi : StandsFor position text i) (hj : StandsFor position text j) :
    i = j := by
  cases hi with
  | dash =>
    cases hj with
    | dash => rfl
    | plain _ hdash => exact absurd rfl hdash
  | plain _ hdash =>
    cases hj with
    | dash => exact absurd rfl hdash
    | plain => rfl
  | number hlength hread _ =>
    cases hj with
    | number _ hread' _ => rw [Option.some.inj (hread.symm.trans hread')]
    | shorthand | escape => simp at hlength
  | shorthand s =>
    generalize hs : s.letter = c at hj
    cases hj with
    | number hlength => simp at hlength
    | shorthand s' => rw [Shorthand.letter_injective hs]
    | escape hc => exact absurd (hs ▸ s.letter_mem_escapeLetters) hc
  | escape hc =>
    cases hj with
    | number hlength => simp at hlength
    | shorthand s => exact absurd s.letter_mem_escapeLetters hc
    | escape => rfl

theorem StandsFor.not_badEscape (hi : StandsFor position text i) : ¬ BadEscape text := by
  intro hbad
  cases hi with
  | dash => cases hbad
  | plain hc _ =>
    cases hbad
    exact hc rfl
  | number hlength hread hcp =>
    cases hbad with
    | short => simp at hlength
    | large _ hread' hcp' =>
      rw [Option.some.inj (hread'.symm.trans hread)] at hcp'
      exact Nat.not_lt.mpr hcp' hcp
  | shorthand s =>
    rw [badEscape_pair_iff] at hbad
    cases s <;> simp [Shorthand.letter] at hbad
  | escape hc =>
    refine hc ?_
    rcases badEscape_pair_iff.mp hbad with rfl | rfl <;> decide

/-- The number behind a backslash is an item of the class, if it is small enough. -/
theorem ofToken_number {kind : Token.Kind} {start : Nat} {c : Char} {digits : List Char}
    (hkind : kind = .hexEscape ∨ kind = .unicodeEscape)
    (hlength : c = 'x' ∧ digits.length = 2 ∨ c = 'u' ∧ digits.length = 6)
    (hdigits : digits.all Text.isHexDigit = true) :
    (∃ i, ofToken ⟨kind, start, '\\', c :: digits⟩ = .ok i ∧
        StandsFor start ('\\' :: c :: digits) i) ∨
      ((∃ e, ofToken ⟨kind, start, '\\', c :: digits⟩ = .error e) ∧
        BadEscape ('\\' :: c :: digits)) := by
  obtain ⟨cp, hread⟩ := Text.exists_readHex? hdigits
  have hitem : ofToken ⟨kind, start, '\\', c :: digits⟩ =
      (Token.literal ⟨kind, start, '\\', c :: digits⟩).map (.char · start) := by
    rcases hkind with rfl | rfl <;> rfl
  have hliteral := Regex.literal_of_readHex? (t := ⟨kind, start, '\\', c :: digits⟩) hkind hread
  rw [hitem, hliteral]
  split_ifs with hcp
  · exact Or.inl ⟨.char cp start, rfl, .number hlength hread hcp⟩
  · exact Or.inr ⟨⟨.malformed start .codePointOutOfRange, rfl⟩,
      .large (hlength.imp And.left And.left) hread (Nat.le_of_not_lt hcp)⟩

/-- A token of a text is read as the item its text stands for. -/
theorem ofToken_cases (h : Token.Spells t.kind t.text) :
    (∃ i, ofToken t = .ok i ∧ StandsFor t.start t.text i) ∨
      ((∃ e, ofToken t = .error e) ∧ BadEscape t.text) := by
  obtain ⟨kind, start, first, more⟩ := t
  change Token.Spells kind (first :: more) at h
  cases h with
  | plain hc =>
    by_cases hdash : first = '-'
    · subst hdash
      exact Or.inl ⟨.dash start, rfl, .dash⟩
    · refine Or.inl ⟨.char first.toNat start, ?_, .plain hc hdash⟩
      have hescape := Token.isEscape_plainKind first
      rw [ofToken_of_literal, Token.literal_of_not_isEscape hescape]
      · rfl
      · exact fun hkind ↦ hdash (Token.eq_of_plainKind_eq (d := '-') (by decide) hkind)
      · intro s hkind
        rw [show Token.plainKind first = _ from hkind] at hescape
        cases hescape
  | hex hlength hdigits => exact ofToken_number (Or.inl rfl) (Or.inl ⟨rfl, hlength⟩) hdigits
  | unicode hlength hdigits => exact ofToken_number (Or.inr rfl) (Or.inr ⟨rfl, hlength⟩) hdigits
  | shorthand s => exact Or.inl ⟨.set s.charset start, rfl, .shorthand s⟩
  | escape hc => exact Or.inl ⟨.char (Token.escapedCodePoint _) start, rfl, .escape hc⟩
  | short hc => exact Or.inr ⟨⟨_, rfl⟩, .short hc⟩
  | lone => exact Or.inr ⟨⟨_, rfl⟩, .lone⟩

theorem ofToken_eq_ok_iff (h : Token.Spells t.kind t.text) :
    ofToken t = .ok i ↔ StandsFor t.start t.text i := by
  rcases ofToken_cases h with ⟨j, hj, hstands⟩ | ⟨⟨e, he⟩, hbad⟩
  · rw [hj, Except.ok.injEq]
    exact ⟨fun heq ↦ heq ▸ hstands, hstands.unique⟩
  · rw [he]
    exact iff_of_false nofun fun hstands ↦ hstands.not_badEscape hbad

/-- The code point of an item that is one end of a range. -/
def codePoint? : ClassItem → Option Nat
  | char cp _ => some cp
  | dash _ => some '-'.toNat
  | set _ _ => none

/-- The code point belongs to the item where it is taken alone. -/
def Has (cp : Nat) : ClassItem → Prop
  | char c _ => cp = c
  | dash _ => cp = '-'.toNat
  | set s _ => cp ∈ s

/-- As the end of a range the item lies in the alphabet. -/
def Fits (i : ClassItem) : Prop :=
  ∀ cp, i.codePoint? = some cp → cp < alphabetSize

theorem StandsFor.fits (h : StandsFor position text i) : i.Fits := by
  intro cp hcp
  cases h with
  | dash =>
    obtain rfl := Option.some.inj hcp
    decide
  | plain =>
    obtain rfl := Option.some.inj hcp
    exact toNat_lt_alphabetSize _
  | number _ _ hlt =>
    obtain rfl := Option.some.inj hcp
    exact hlt
  | shorthand s => cases hcp
  | escape =>
    obtain rfl := Option.some.inj hcp
    exact Token.escapedCodePoint_lt _

theorem exists_endpoint_iff {cp : Nat} :
    (∃ position, i.endpoint = .ok (cp, position)) ↔ i.codePoint? = some cp := by
  cases i <;> simp [endpoint, codePoint?, dashCodePoint]

theorem exists_rangeBetween {low high : Nat} (hlow : i.codePoint? = some low)
    (hhigh : j.codePoint? = some high) (hle : low ≤ high) (hj : j.Fits) :
    ∃ r, rangeBetween i j = .ok r ∧ ∀ cp, cp ∈ r ↔ low ≤ cp ∧ cp ≤ high := by
  obtain ⟨r, hr, hmem⟩ := CodeRange.exists_inclusive hle (hj high hhigh)
  obtain ⟨position, hfirst⟩ := exists_endpoint_iff.mpr hlow
  obtain ⟨position', hlast⟩ := exists_endpoint_iff.mpr hhigh
  refine ⟨r, ?_, hmem⟩
  rw [rangeBetween, hfirst, hlast]
  change (if high < low then _ else _) = _
  rw [if_neg (Nat.not_lt.mpr hle)]
  exact Regex.liftRange_eq_ok_iff.mpr hr

theorem le_of_rangeBetween {r : CodeRange} (h : rangeBetween i j = .ok r) :
    ∃ low high, i.codePoint? = some low ∧ j.codePoint? = some high ∧ low ≤ high := by
  obtain ⟨⟨low, position⟩, hfirst, h⟩ := exists_of_bind_eq_ok h
  obtain ⟨⟨high, position'⟩, hlast, h⟩ := exists_of_bind_eq_ok h
  dsimp only at h
  split_ifs at h with hlt
  · cases h
  · exact ⟨low, high, exists_endpoint_iff.mp ⟨position, hfirst⟩,
      exists_endpoint_iff.mp ⟨position', hlast⟩, Nat.le_of_not_lt hlt⟩

theorem exists_ranges (h : i.Fits) : ∃ rs, i.ranges = .ok rs ∧ ∀ cp, Covers rs cp ↔ i.Has cp := by
  have hsingle (c : Nat) (hc : c < alphabetSize) : ∃ rs,
      (do return [← liftRange (CodeRange.single c)] : Except CompileError _) = .ok rs ∧
        ∀ cp, Covers rs cp ↔ cp = c := by
    obtain ⟨r, hr, hmem⟩ := CodeRange.exists_single hc
    refine ⟨[r], ?_, fun cp ↦ by simp [hmem]⟩
    rw [Regex.liftRange_eq_ok_iff.mpr hr]
    rfl
  cases i with
  | char c position => exact hsingle c (h c rfl)
  | dash position => exact hsingle dashCodePoint (h dashCodePoint rfl)
  | set s position => exact ⟨s.ranges, rfl, fun cp ↦ Iff.rfl⟩

/-! ### Pieces -/

/-- Items that are taken together. -/
inductive Piece where
  | range (first last : ClassItem)
  | alone (item : ClassItem)

namespace Piece

/-- The code point belongs to the piece. -/
def Has (cp : Nat) : Piece → Prop
  | range first last => ∃ low high, first.codePoint? = some low ∧ last.codePoint? = some high ∧
      low ≤ cp ∧ cp ≤ high
  | alone item => item.Has cp

/-- A range with a set at one end, or with its ends in the wrong order. -/
def Malformed : Piece → Prop
  | range first last => first.codePoint? = none ∨ last.codePoint? = none ∨
      ∃ low high, first.codePoint? = some low ∧ last.codePoint? = some high ∧ high < low
  | alone _ => False

theorem not_malformed_range_iff : ¬ (range i j).Malformed ↔
    ∃ low high, i.codePoint? = some low ∧ j.codePoint? = some high ∧ low ≤ high := by
  cases hi : i.codePoint? <;> cases hj : j.codePoint? <;> simp [Malformed, hi, hj]

end Piece

/-- The items are taken from the left: three of them as a range where a dash is followed by another
item, and one alone otherwise. -/
inductive Taken : List ClassItem → List Piece → Prop
  | nil : Taken [] []
  | range {first last : ClassItem} {items : List ClassItem} {pieces : List Piece} (position : Nat)
      (h : Taken items pieces) :
      Taken (first :: .dash position :: last :: items) (.range first last :: pieces)
  | alone {item : ClassItem} {items : List ClassItem} {pieces : List Piece}
      (hdash : ∀ position last more, items ≠ .dash position :: last :: more)
      (h : Taken items pieces) : Taken (item :: items) (.alone item :: pieces)

variable {items : List ClassItem} {pieces pieces' : List Piece}

theorem exists_taken (items : List ClassItem) : ∃ pieces, Taken items pieces := by
  induction items using rangesAll.induct with
  | case1 first position last items ih =>
    obtain ⟨pieces, h⟩ := ih
    exact ⟨_, .range position h⟩
  | case2 item items hdash ih =>
    obtain ⟨pieces, h⟩ := ih
    exact ⟨_, .alone hdash h⟩
  | case3 => exact ⟨[], .nil⟩

theorem Taken.unique (h : Taken items pieces) (h' : Taken items pieces') : pieces = pieces' := by
  induction h generalizing pieces' with
  | nil =>
    cases h'
    rfl
  | range position h ih =>
    cases h' with
    | range _ h' => rw [ih h']
    | alone hdash _ => exact absurd rfl (hdash _ _ _)
  | alone hdash h ih =>
    cases h' with
    | range position _ => exact absurd rfl (hdash _ _ _)
    | alone _ h' => rw [ih h']

/-- Pieces that are well-formed have their ranges, and these cover the code points of the pieces. -/
theorem Taken.exists_rangesAll (h : Taken items pieces) (hfits : ∀ i ∈ items, i.Fits)
    (hform : ∀ p ∈ pieces, ¬ p.Malformed) :
    ∃ rs, rangesAll items = .ok rs ∧ ∀ cp, Covers rs cp ↔ ∃ p ∈ pieces, p.Has cp := by
  induction h with
  | nil => exact ⟨[], rfl, fun cp ↦ by simp⟩
  | range position h ih =>
    simp only [List.forall_mem_cons] at hfits hform
    obtain ⟨low, high, hlow, hhigh, hle⟩ := Piece.not_malformed_range_iff.mp hform.1
    obtain ⟨r, hr, hmem⟩ := exists_rangeBetween hlow hhigh hle hfits.2.2.1
    obtain ⟨rs, hrs, hcovers⟩ := ih hfits.2.2.2 hform.2
    refine ⟨r :: rs, ?_, fun cp ↦ ?_⟩
    · rw [rangesAll, hr]
      change (rangesAll _ >>= fun rest ↦ _) = _
      rw [hrs]
      rfl
    · simp [hmem, hcovers, Piece.Has, hlow, hhigh]
  | alone hdash h ih =>
    simp only [List.forall_mem_cons] at hfits hform
    obtain ⟨part, hpart, hmem⟩ := exists_ranges hfits.1
    obtain ⟨rs, hrs, hcovers⟩ := ih hfits.2 hform.2
    refine ⟨part ++ rs, ?_, fun cp ↦ ?_⟩
    · rw [rangesAll, hpart]
      · change (rangesAll _ >>= fun rest ↦ _) = _
        rw [hrs]
        rfl
      · exact hdash
    · simp [hmem, hcovers, Piece.Has]

theorem Taken.not_malformed (h : Taken items pieces) {rs : List CodeRange}
    (hrs : rangesAll items = .ok rs) : ∀ p ∈ pieces, ¬ p.Malformed := by
  induction h generalizing rs with
  | nil => exact List.forall_mem_nil _
  | range position h ih =>
    rw [rangesAll] at hrs
    obtain ⟨r, hr, hrs⟩ := exists_of_bind_eq_ok hrs
    obtain ⟨rest, hrest, _⟩ := exists_of_bind_eq_ok hrs
    rw [List.forall_mem_cons]
    exact ⟨Piece.not_malformed_range_iff.mpr (le_of_rangeBetween hr), ih hrest⟩
  | alone hdash h ih =>
    rw [rangesAll] at hrs
    · obtain ⟨part, _, hrs⟩ := exists_of_bind_eq_ok hrs
      obtain ⟨rest, hrest, _⟩ := exists_of_bind_eq_ok hrs
      rw [List.forall_mem_cons]
      exact ⟨not_false, ih hrest⟩
    · exact hdash

end ClassItem

/-! ### Classes -/

namespace Regex

open ClassItem (StandsFor Piece Taken)

variable {ts inner inner' after after' : List Token} {items items' : List ClassItem}
  {pieces pieces' : List Piece} {s : CharSet} {opened : Nat}

/-- The first token behind the opening of the class is a caret that is not escaped. -/
def negated (ts : List Token) : Bool :=
  ts.head?.any (·.text = ['^'])

/-- The tokens of a class and all that follows, without the caret that negates the class. -/
def behindCaret (ts : List Token) : List Token :=
  if negated ts then ts.tail else ts

/-- The tokens in front of a closing bracket, of which only the first may be one itself. -/
def Encloses (ts inner after : List Token) : Prop :=
  ∃ first body closing, inner = first :: body ∧ ts = inner ++ closing :: after ∧
    closing.text = [']'] ∧ ∀ t ∈ body, t.text ≠ [']']

/-- How the tokens behind an opening bracket are read: the tokens of the class, the items they stand
for, and the pieces that the items are taken as. -/
structure ClassReading (ts inner after : List Token) (items : List ClassItem)
    (pieces : List Piece) : Prop where
  closed : Encloses (behindCaret ts) inner after
  spelled : List.Forall₂ (fun t i ↦ StandsFor t.start t.text i) inner items
  taken : Taken items pieces

/-- The code point belongs to a class of the pieces: to one of them or, if the class is negated, to
none. -/
def Denotes (negated : Bool) (pieces : List Piece) (cp : Nat) : Prop :=
  if negated then cp < alphabetSize ∧ ¬ ∃ p ∈ pieces, p.Has cp else ∃ p ∈ pieces, p.Has cp

theorem exists_encloses_iff :
    (∃ inner after, Encloses ts inner after) ↔ ∃ t ∈ ts.tail, t.text = [']'] := by
  constructor
  · rintro ⟨_, after, first, body, closing, rfl, rfl, hclosing, _⟩
    exact ⟨closing, by simp, hclosing⟩
  · rintro ⟨t, ht, htext⟩
    cases ts with
    | nil => cases ht
    | cons first ts =>
      -- The first closing bracket is found among the texts.
      obtain ⟨texts, texts', heq, hnot⟩ :=
        List.eq_append_cons_of_mem (List.mem_map.mpr ⟨t, ht, htext⟩)
      obtain ⟨body, rest, rfl, rfl, hrest⟩ := List.map_eq_append_iff.mp heq
      obtain ⟨closing, after, rfl, hclosing, rfl⟩ := List.map_eq_cons_iff.mp hrest
      refine ⟨first :: body, after, first, body, closing, rfl, rfl, hclosing, fun u hu hutext ↦ ?_⟩
      exact hnot (List.mem_map.mpr ⟨u, hu, hutext⟩)

theorem mem_of_mem_behindCaret {t : Token} (h : t ∈ behindCaret ts) : t ∈ ts := by
  unfold behindCaret at h
  split_ifs at h
  · exact List.mem_of_mem_tail h
  · exact h

theorem mem_of_encloses (h : Encloses ts inner after) {t : Token} (ht : t ∈ inner) : t ∈ ts := by
  obtain ⟨first, body, closing, _, rfl, _⟩ := h
  exact List.mem_append_left _ ht

theorem ClassReading.fits (h : ClassReading ts inner after items pieces) :
    ∀ i ∈ items, i.Fits := by
  have hfits : List.Forall₂ (fun i (t : Token) ↦ i.Fits ∧ StandsFor t.start t.text i) items inner :=
    List.Forall₂.flip (h.spelled.imp fun t i hi ↦ ⟨hi.fits, hi⟩)
  exact ((List.forall₂_and_left _ _).mp hfits).1

theorem ClassReading.not_badEscape (h : ClassReading ts inner after items pieces) :
    ∀ t ∈ inner, ¬ BadEscape t.text := by
  have hgood := h.spelled.imp fun t i hi ↦ And.intro hi.not_badEscape hi
  exact ((List.forall₂_and_left _ _).mp hgood).1

/-- Texts stand for items unless one of them is an escape that stands for nothing. -/
theorem exists_items (hspells : ∀ t ∈ inner, Token.Spells t.kind t.text)
    (hgood : ¬ ∃ t ∈ inner, BadEscape t.text) :
    ∃ items, List.Forall₂ (fun t i ↦ StandsFor t.start t.text i) inner items := by
  induction inner with
  | nil => exact ⟨[], .nil⟩
  | cons t inner ih =>
    simp only [List.exists_mem_cons_iff, not_or] at hgood
    rw [List.forall_mem_cons] at hspells
    obtain ⟨items, hitems⟩ := ih hspells.2 hgood.2
    rcases ClassItem.ofToken_cases hspells.1 with ⟨i, _, hi⟩ | ⟨_, hbad⟩
    · exact ⟨i :: items, .cons hi hitems⟩
    · exact absurd hbad hgood.1

theorem denotes_of_covers {ranges : List CodeRange} (negated : Bool)
    (h : ∀ cp, Covers ranges cp ↔ ∃ p ∈ pieces, p.Has cp) :
    (if negated then (CharSet.ofRanges ranges).complement
        else (CharSet.ofRanges ranges).canonical).IsCanonical ∧
      ∀ cp, cp ∈ (if negated then (CharSet.ofRanges ranges).complement
        else (CharSet.ofRanges ranges).canonical) ↔ Denotes negated pieces cp := by
  cases negated with
  | false => exact ⟨CharSet.isCanonical_canonical _, fun cp ↦ by simp [Denotes, h]⟩
  | true => exact ⟨CharSet.isCanonical_complement _, fun cp ↦ by simp [Denotes, h]⟩

section Spelled

variable (hspells : ∀ t ∈ ts, Token.Spells t.kind t.text)
include hspells

theorem spells_behindCaret : ∀ t ∈ behindCaret ts, Token.Spells t.kind t.text :=
  fun t ht ↦ hspells t (mem_of_mem_behindCaret ht)

theorem exists_classSpan_iff :
    (∃ u, classSpan ts = (inner, u :: after)) ↔ Encloses ts inner after := by
  have hclose : ∀ t ∈ ts, t.kind = .bracketClose ↔ t.text = [']'] := fun t ht ↦
    (hspells t ht).kind_eq_iff (c := ']') (by decide)
  simp only [classSpan_eq_iff]
  constructor
  · rintro ⟨u, first, body, rfl, rfl, hu, hbody⟩
    refine ⟨first, body, u, rfl, rfl, (hclose u (by simp)).mp hu, fun t ht htext ↦ ?_⟩
    exact hbody t ht ((hclose t (by simp [ht])).mpr htext)
  · rintro ⟨first, body, u, rfl, rfl, hu, hbody⟩
    refine ⟨u, first, body, rfl, rfl, (hclose u (by simp)).mpr hu, fun t ht hkind ↦ ?_⟩
    exact hbody t ht ((hclose t (by simp [ht])).mp hkind)

theorem Encloses.unique (h : Encloses ts inner after) (h' : Encloses ts inner' after') :
    inner = inner' := by
  obtain ⟨u, hu⟩ := (exists_classSpan_iff hspells).mpr h
  obtain ⟨u', hu'⟩ := (exists_classSpan_iff hspells).mpr h'
  exact (Prod.mk.inj (hu.symm.trans hu')).1

/-- A class is read in at most one way. -/
theorem ClassReading.unique (h : ClassReading ts inner after items pieces)
    (h' : ClassReading ts inner' after' items' pieces') : inner = inner' ∧ pieces = pieces' := by
  obtain rfl := Encloses.unique (spells_behindCaret hspells) h.closed h'.closed
  have hunique : Relator.RightUnique fun (t : Token) i ↦ StandsFor t.start t.text i :=
    fun _ _ _ hi hj ↦ hi.unique hj
  obtain rfl := hunique.forall₂ h.spelled h'.spelled
  exact ⟨rfl, h.taken.unique h'.taken⟩

theorem gives_bracketed_iff_classSet : Gives (bracketed opened ts) (s, after) ↔
    Gives (classSet opened (negated ts) (behindCaret ts)) (s, after) := by
  cases ts with
  | nil => exact Iff.rfl
  | cons t ts =>
    have hcaret : t.kind = .caret ↔ t.text = ['^'] :=
      (hspells t List.mem_cons_self).kind_eq_iff (c := '^') (by decide)
    rw [gives_bracketed, startsWith_cons, hcaret]
    by_cases htext : t.text = ['^']
    · have hnegated : negated (t :: ts) = true := by simp [negated, htext]
      have hbehind : behindCaret (t :: ts) = ts := by simp [behindCaret, hnegated]
      rw [hnegated, hbehind]
      simp [htext, hcaret]
    · have hnegated : negated (t :: ts) = false := by simp [negated, htext]
      have hbehind : behindCaret (t :: ts) = t :: ts := by simp [behindCaret, hnegated]
      rw [hnegated, hbehind]
      simp [htext, hcaret]

/-- What is read from brackets, in terms of the texts between them. -/
theorem gives_bracketed_iff_reading : Gives (bracketed opened ts) (s, after) ↔
    ∃ inner items pieces ranges, ClassReading ts inner after items pieces ∧
      ClassItem.rangesAll items = .ok ranges ∧
      s = if negated ts then (CharSet.ofRanges ranges).complement
        else (CharSet.ofRanges ranges).canonical := by
  have hbehind := spells_behindCaret hspells
  rw [gives_bracketed_iff_classSet hspells, gives_classSet]
  constructor
  · rintro ⟨u, inner, items, ranges, hspan, hitems, hranges, hs⟩
    have hclosed := (exists_classSpan_iff hbehind).mp ⟨u, hspan⟩
    obtain ⟨pieces, htaken⟩ := ClassItem.exists_taken items
    refine ⟨inner, items, pieces, ranges, ⟨hclosed, ?_, htaken⟩, hranges, hs⟩
    have hinner := (List.forall₂_and_left _ _).mpr
      ⟨fun t ht ↦ hbehind t (mem_of_encloses hclosed ht), hitems⟩
    exact hinner.imp fun t i h ↦ (ClassItem.ofToken_eq_ok_iff h.1).mp h.2
  · rintro ⟨inner, items, pieces, ranges, ⟨hclosed, hspelled, _⟩, hranges, hs⟩
    obtain ⟨u, hspan⟩ := (exists_classSpan_iff hbehind).mpr hclosed
    refine ⟨u, inner, items, ranges, hspan, ?_, hranges, hs⟩
    have hinner := (List.forall₂_and_left _ _).mpr
      ⟨fun t ht ↦ hbehind t (mem_of_encloses hclosed ht), hspelled⟩
    exact hinner.imp fun t i h ↦ (ClassItem.ofToken_eq_ok_iff h.1).mpr h.2

/-- A class is read as the canonical set of the code points that its pieces denote. -/
theorem gives_bracketed_iff_denotes : Gives (bracketed opened ts) (s, after) ↔
    ∃ inner items pieces, ClassReading ts inner after items pieces ∧
      (∀ p ∈ pieces, ¬ p.Malformed) ∧ s.IsCanonical ∧
      ∀ cp, cp ∈ s ↔ Denotes (negated ts) pieces cp := by
  rw [gives_bracketed_iff_reading hspells]
  constructor
  · rintro ⟨inner, items, pieces, ranges, hreading, hranges, rfl⟩
    have hform := hreading.taken.not_malformed hranges
    obtain ⟨rs, hrs, hcovers⟩ := hreading.taken.exists_rangesAll hreading.fits hform
    obtain rfl := Except.ok.inj (hranges.symm.trans hrs)
    exact ⟨inner, items, pieces, hreading, hform, denotes_of_covers (negated ts) hcovers⟩
  · rintro ⟨inner, items, pieces, hreading, hform, hcanonical, hmem⟩
    obtain ⟨ranges, hranges, hcovers⟩ := hreading.taken.exists_rangesAll hreading.fits hform
    obtain ⟨hcanonical', hmem'⟩ := denotes_of_covers (negated ts) hcovers
    refine ⟨inner, items, pieces, ranges, hreading, hranges, ?_⟩
    exact hcanonical.eq_of_mem_iff hcanonical' fun cp ↦ (hmem cp).trans (hmem' cp).symm

/-- A class is rejected if it is not closed, if an escape in it stands for nothing, or if one of its
ranges is malformed, and for no other reason. -/
theorem bracketed_eq_error_iff : (∃ e, bracketed opened ts = .error e) ↔
    (∀ t ∈ (behindCaret ts).tail, t.text ≠ [']']) ∨
      (∃ inner after, Encloses (behindCaret ts) inner after ∧ ∃ t ∈ inner, BadEscape t.text) ∨
      ∃ inner after items pieces, ClassReading ts inner after items pieces ∧
        ∃ p ∈ pieces, p.Malformed := by
  rw [exists_error_iff]
  constructor
  · intro hnone
    by_cases hclosed : ∃ t ∈ (behindCaret ts).tail, t.text = [']']
    · right
      obtain ⟨inner, after, hencloses⟩ := exists_encloses_iff.mpr hclosed
      by_cases hbad : ∃ t ∈ inner, BadEscape t.text
      · exact Or.inl ⟨inner, after, hencloses, hbad⟩
      · right
        -- The texts stand for items, which are taken in some way, so a range must be at fault.
        obtain ⟨items, hitems⟩ := exists_items
          (fun t ht ↦ spells_behindCaret hspells t (mem_of_encloses hencloses ht)) hbad
        obtain ⟨pieces, htaken⟩ := ClassItem.exists_taken items
        have hreading : ClassReading ts inner after items pieces := ⟨hencloses, hitems, htaken⟩
        refine ⟨inner, after, items, pieces, hreading, by_contra fun hform ↦ ?_⟩
        push Not at hform
        obtain ⟨ranges, hranges, _⟩ := htaken.exists_rangesAll hreading.fits hform
        exact hnone _ ((gives_bracketed_iff_reading hspells).mpr
          ⟨inner, items, pieces, ranges, hreading, hranges, rfl⟩)
    · left
      push Not at hclosed
      exact hclosed
  · -- A class that is read has one reading, and each of the reasons speaks against it.
    rintro hreason ⟨s, last⟩ hgives
    obtain ⟨inner, items, pieces, hreading, hform, _⟩ :=
      (gives_bracketed_iff_denotes hspells).mp hgives
    rcases hreason with hopen | ⟨inner', after', hencloses, t, ht, hbad⟩ |
      ⟨inner', after', items', pieces', hreading', p, hp, hmalformed⟩
    · obtain ⟨t, ht, htext⟩ := exists_encloses_iff.mp ⟨inner, last, hreading.closed⟩
      exact hopen t ht htext
    · obtain rfl := Encloses.unique (spells_behindCaret hspells) hreading.closed hencloses
      exact hreading.not_badEscape t ht hbad
    · obtain ⟨_, rfl⟩ := ClassReading.unique hspells hreading hreading'
      exact hform p hp hmalformed

end Spelled

/-- Behind an opening bracket, wherever it stands in a pattern, a class is read as what is written:
the canonical set of the code points of its pieces or, behind a caret, of the others. It is rejected
exactly if it is not closed, holds an escape that stands for nothing, or has a malformed range. -/
theorem bracketed_reads_what_is_written (source : String) (opened k : Nat) :
    (∀ s after, Gives (bracketed opened ((Token.scan source).drop k)) (s, after) ↔
      ∃ inner items pieces,
        ClassReading ((Token.scan source).drop k) inner after items pieces ∧
        (∀ p ∈ pieces, ¬ p.Malformed) ∧ s.IsCanonical ∧
        ∀ cp, cp ∈ s ↔ Denotes (negated ((Token.scan source).drop k)) pieces cp) ∧
    ((∃ e, bracketed opened ((Token.scan source).drop k) = .error e) ↔
      (∀ t ∈ (behindCaret ((Token.scan source).drop k)).tail, t.text ≠ [']']) ∨
      (∃ inner after, Encloses (behindCaret ((Token.scan source).drop k)) inner after ∧
        ∃ t ∈ inner, BadEscape t.text) ∨
      ∃ inner after items pieces,
        ClassReading ((Token.scan source).drop k) inner after items pieces ∧
        ∃ p ∈ pieces, p.Malformed) := by
  have hspells : ∀ t ∈ (Token.scan source).drop k, Token.Spells t.kind t.text :=
    fun t ht ↦ Token.spells_of_mem_scanFrom (List.mem_of_mem_drop ht)
  exact ⟨fun s after ↦ gives_bracketed_iff_denotes hspells, bracketed_eq_error_iff hspells⟩

end Regex

end SignalRegex
