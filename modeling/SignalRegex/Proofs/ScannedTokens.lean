import SignalRegex.Pattern.Token

/-!
Tokens of a text and of its parts.

The texts of the tokens make up the text (`flatMap_text_scanFrom`). Where a text starts changes the
places of its tokens and nothing else (`scanFrom_add`), and a text without an incomplete escape is
scanned in the same way whatever comes behind it (`scanFrom_append`). Which kind a token has can be
seen from its text (`spells_of_mem_scanFrom`).
-/

set_option autoImplicit false

namespace SignalRegex

theorem byteLength_append (front back : List Char) :
    byteLength (front ++ back) = byteLength front + byteLength back := by
  induction front with
  | nil => exact (Nat.zero_add _).symm
  | cons c front ih =>
    change c.utf8Size + byteLength (front ++ back) = c.utf8Size + byteLength front + byteLength back
    rw [ih, Nat.add_assoc]

namespace Token

/-- The token at a place that lies `distance` bytes further on. -/
def shift (distance : Nat) (t : Token) : Token :=
  { t with start := t.start + distance }

theorem stop_shift (distance : Nat) (t : Token) : (t.shift distance).stop = t.stop + distance :=
  Nat.add_right_comm ..

theorem flatMap_text_shift (distance : Nat) (ts : List Token) :
    (ts.map (shift distance)).flatMap text = ts.flatMap text := by
  rw [List.flatMap_map]
  rfl

/-- The texts of the tokens, one after the other, are the text they come from. -/
theorem flatMap_text_scanFrom (start : Nat) (source : List Char) :
    (scanFrom start source).flatMap text = source := by
  fun_induction scanFrom start source with
  | case1 => rfl
  | case2 start c rest token ih =>
    rw [List.flatMap_cons, ih]
    change c :: (rest.take _ ++ rest.drop _) = c :: rest
    rw [List.take_append_drop]

theorem scanFrom_add (start distance : Nat) (source : List Char) :
    scanFrom (start + distance) source = (scanFrom start source).map (shift distance) := by
  fun_induction scanFrom start source with
  | case1 => rw [scanFrom, List.map_nil]
  | case2 start c rest token ih =>
    rw [scanFrom, List.map_cons, ← ih, ← stop_shift]
    rfl

theorem scanFrom_cons {c : Char} (hc : c ≠ '\\') (start : Nat) (rest : List Char) :
    scanFrom start (c :: rest) =
      ⟨plainKind c, start, c, []⟩ :: scanFrom (start + c.utf8Size) rest := by
  rw [scanFrom, lexeme, if_neg hc]
  rfl

variable {rest : List Char} (back : List Char) {c : Char}

theorem startsWithHex_append {n : Nat} (h : startsWithHex n rest = true) :
    startsWithHex n (rest ++ back) = true := by
  simp only [startsWithHex, Bool.and_eq_true, decide_eq_true_eq] at h ⊢
  rw [List.take_append_of_le_length h.1, List.length_append]
  exact ⟨Nat.le_add_right_of_le h.1, h.2⟩

theorem length_of_startsWithHex {n : Nat} (h : startsWithHex n rest = true) : n ≤ rest.length := by
  simp only [startsWithHex, Bool.and_eq_true, decide_eq_true_eq] at h
  exact h.1

theorem escapeKind_le_length (rest : List Char) : (escapeKind rest).2 ≤ rest.length := by
  have hone (c : Char) (more : List Char) : 1 ≤ (c :: more).length :=
    Nat.succ_le_succ (Nat.zero_le _)
  fun_cases escapeKind rest with
  | case1 => exact Nat.le_refl _
  | case2 rest hhex | case4 rest hhex => exact Nat.succ_le_succ (length_of_startsWithHex hhex)
  | case3 | case5 | case6 | case7 | case8 | case9 => exact hone _ _

theorem lexeme_le_length (c : Char) (rest : List Char) : (lexeme c rest).2 ≤ rest.length := by
  unfold lexeme
  split
  · exact escapeKind_le_length rest
  · exact Nat.zero_le _

/-- An escape that is complete stays what it is with more text. -/
theorem escapeKind_append (h : (escapeKind rest).1 ≠ .incomplete) :
    escapeKind (rest ++ back) = escapeKind rest := by
  fun_cases escapeKind rest with
  | case1 => exact absurd rfl h
  | case2 rest hhex | case4 rest hhex =>
    rw [List.cons_append, escapeKind, if_pos (startsWithHex_append _ hhex)]
  | case3 rest hhex | case5 rest hhex => exact absurd (by rw [escapeKind, if_neg hhex]) h
  | case6 | case7 | case8 => rfl
  | case9 c rest hx hu hd hw hs =>
    rw [List.cons_append, escapeKind] <;> assumption

theorem lexeme_append (h : (lexeme c rest).1 ≠ .incomplete) :
    lexeme c (rest ++ back) = lexeme c rest := by
  unfold lexeme at h ⊢
  by_cases hc : c = '\\'
  · rw [if_pos hc] at h
    rw [if_pos hc, if_pos hc]
    exact escapeKind_append back h
  · rw [if_neg hc, if_neg hc]

/-- A text whose escapes are complete is scanned in the same way whatever comes behind it. -/
theorem scanFrom_append {start : Nat} {front : List Char}
    (h : ∀ t ∈ scanFrom start front, t.kind ≠ .incomplete) :
    scanFrom start (front ++ back) =
      scanFrom start front ++ scanFrom (start + byteLength front) back := by
  fun_induction scanFrom start front with
  | case1 start => rfl
  | case2 start c rest token ih =>
    obtain ⟨hfirst, hmore⟩ := List.forall_mem_cons.mp h
    have hlexeme := lexeme_append back hfirst
    have hlength := lexeme_le_length c rest
    have htext : byteLength (c :: rest) =
        byteLength token.text + byteLength (rest.drop (lexeme c rest).2) := by
      rw [← byteLength_append]
      change _ = byteLength (c :: (rest.take _ ++ rest.drop _))
      rw [List.take_append_drop]
    rw [List.cons_append, scanFrom, hlexeme, List.take_append_of_le_length hlength,
      List.drop_append_of_le_length hlength, htext, ← Nat.add_assoc]
    exact congrArg (token :: ·) (ih hmore)

end Token

/-! ### Kinds and texts -/

/-- The letters that give an escape a kind of its own. -/
def Token.escapeLetters : List Char :=
  ['x', 'u', 'd', 'w', 's']

namespace Shorthand

/-- The letter that stands for the class behind a backslash. -/
def letter : Shorthand → Char
  | digit => 'd'
  | word => 'w'
  | space => 's'

theorem letter_injective {s s' : Shorthand} (h : s.letter = s'.letter) : s = s' := by
  cases s <;> cases s' <;> simp_all [letter]

theorem letter_mem_escapeLetters (s : Shorthand) : s.letter ∈ Token.escapeLetters := by
  cases s <;> decide

end Shorthand

namespace Token

/-- The text is one that a token of the kind may have. -/
inductive Spells : Kind → List Char → Prop
  | plain {c : Char} (hc : c ≠ '\\') : Spells (plainKind c) [c]
  | hex {digits : List Char} (hlength : digits.length = 2)
      (hdigits : digits.all Text.isHexDigit = true) : Spells .hexEscape ('\\' :: 'x' :: digits)
  | unicode {digits : List Char} (hlength : digits.length = 6)
      (hdigits : digits.all Text.isHexDigit = true) : Spells .unicodeEscape ('\\' :: 'u' :: digits)
  | shorthand (s : Shorthand) : Spells (.classEscape s) ['\\', s.letter]
  | escape {c : Char} (hc : c ∉ escapeLetters) : Spells .escape ['\\', c]
  | short {c : Char} (hc : c = 'x' ∨ c = 'u') : Spells .incomplete ['\\', c]
  | lone : Spells .incomplete ['\\']

theorem digits_of_startsWithHex {n : Nat} {rest : List Char} (h : startsWithHex n rest = true) :
    (rest.take n).length = n ∧ (rest.take n).all Text.isHexDigit = true := by
  have hlength := length_of_startsWithHex h
  simp only [startsWithHex, Bool.and_eq_true] at h
  exact ⟨List.length_take_of_le hlength, h.2⟩

theorem spells_escapeKind (rest : List Char) :
    Spells (escapeKind rest).1 ('\\' :: rest.take (escapeKind rest).2) := by
  fun_cases escapeKind rest with
  | case1 => exact .lone
  | case2 rest hhex =>
    obtain ⟨hlength, hdigits⟩ := digits_of_startsWithHex hhex
    exact .hex hlength hdigits
  | case3 => exact .short (Or.inl rfl)
  | case4 rest hhex =>
    obtain ⟨hlength, hdigits⟩ := digits_of_startsWithHex hhex
    exact .unicode hlength hdigits
  | case5 => exact .short (Or.inr rfl)
  | case6 => exact .shorthand .digit
  | case7 => exact .shorthand .word
  | case8 => exact .shorthand .space
  | case9 c rest hx hu hd hw hs =>
    have hc : c ∉ escapeLetters := by
      simp only [escapeLetters, List.mem_cons, List.not_mem_nil, or_false, not_or]
      exact ⟨hx, hu, hd, hw, hs⟩
    exact .escape hc

theorem spells_lexeme (c : Char) (rest : List Char) :
    Spells (lexeme c rest).1 (c :: rest.take (lexeme c rest).2) := by
  unfold lexeme
  by_cases hc : c = '\\'
  · rw [if_pos hc, hc]
    exact spells_escapeKind rest
  · rw [if_neg hc]
    exact .plain hc

/-- Every token of a text has a text of its kind. -/
theorem spells_of_mem_scanFrom {start : Nat} {source : List Char} {t : Token}
    (h : t ∈ scanFrom start source) : Spells t.kind t.text := by
  fun_induction scanFrom start source with
  | case1 => cases h
  | case2 start c rest token ih =>
    rcases List.mem_cons.mp h with rfl | h
    · exact spells_lexeme c rest
    · exact ih h

section Marks

variable {c d : Char} {kind : Kind} {text : List Char}

/-- The character of a kind that belongs to one character. -/
def Kind.mark? : Kind → Option Char
  | .parenOpen => some '('
  | .parenClose => some ')'
  | .bracketOpen => some '['
  | .bracketClose => some ']'
  | .braceOpen => some '\x7b'
  | .braceClose => some '\x7d'
  | .caret => some '^'
  | .dollar => some '$'
  | .dot => some '.'
  | .pipe => some '|'
  | .star => some '*'
  | .plus => some '+'
  | .question => some '?'
  | .dash => some '-'
  | _ => none

theorem mark?_plainKind (h : plainKind c ≠ .char) : (plainKind c).mark? = some c := by
  revert h
  unfold plainKind
  split
  case h_15 => exact fun h ↦ absurd rfl h
  all_goals exact fun _ ↦ rfl

theorem eq_of_plainKind_eq (hd : plainKind d ≠ .char) (h : plainKind c = plainKind d) : c = d := by
  have hc : (plainKind c).mark? = some c := mark?_plainKind (h ▸ hd)
  rw [h, mark?_plainKind hd] at hc
  exact (Option.some.inj hc).symm

theorem isEscape_plainKind (c : Char) : (plainKind c).isEscape = false := by
  unfold plainKind
  split <;> rfl

theorem plainKind_ne_of_isEscape (h : kind.isEscape = true) (c : Char) : plainKind c ≠ kind := by
  rintro rfl
  rw [isEscape_plainKind] at h
  cases h

/-- A mark can be told by its text alone: escaped, it has another text. -/
theorem Spells.kind_eq_iff (h : Spells kind text) (hc : plainKind c ≠ .char) :
    kind = plainKind c ↔ text = [c] := by
  have hescape (hkind : kind.isEscape = true) : kind ≠ plainKind c :=
    (plainKind_ne_of_isEscape hkind c).symm
  cases h with
  | plain hd =>
    constructor
    · intro heq
      rw [eq_of_plainKind_eq hc heq]
    · intro heq
      rw [List.singleton_inj.mp heq]
  | lone =>
    refine iff_of_false (hescape rfl) fun heq ↦ hc ?_
    rw [← List.singleton_inj.mp heq]
    rfl
  | hex | unicode | shorthand | escape | short => exact iff_of_false (hescape rfl) (by simp)

end Marks

end Token

end SignalRegex
