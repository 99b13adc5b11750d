import Mathlib.Algebra.Group.Nat.Defs
import SignalRegex.CharSet.Printer
import SignalRegex.Proofs.GrammarReading

/-!
The text of a set is read back as the set.

Each code point is written as one token, next to any neighbour (`exists_token_printCodePoint`), and
each range as one, two or three items of a class (`Block`). A range never starts with a dash, so the
items of one range are not paired with those of the next (`exists_rangesAll_append`).
-/

set_option autoImplicit false

namespace SignalRegex

open CodeRange (Covers covers_cons covers_append)

/-! ### Hexadecimal numerals -/

namespace Text

theorem hexValue?_hexDigit : ∀ d < 16, hexValue? (hexDigit d) = some d := by
  decide

theorem length_fixedHex (width n : Nat) : (fixedHex width n).length = width := by
  induction width generalizing n with
  | zero => rfl
  | succ width ih => rw [fixedHex, List.length_append, ih, List.length_singleton]

theorem isHexDigit_of_mem_fixedHex {width n : Nat} {c : Char} (h : c ∈ fixedHex width n) :
    isHexDigit c = true := by
  induction width generalizing n with
  | zero => cases h
  | succ width ih =>
    rw [fixedHex, List.mem_append, List.mem_singleton] at h
    rcases h with h | rfl
    · exact ih h
    · rw [isHexDigit, hexValue?_hexDigit _ (Nat.mod_lt n (by decide))]
      rfl

theorem readHex?_fixedHex {width n : Nat} (h : n < 16 ^ width) :
    readHex? (fixedHex width n) = some n := by
  induction width generalizing n with
  | zero =>
    rw [pow_zero, Nat.lt_one_iff] at h
    rw [h]
    rfl
  | succ width ih =>
    have hhigh : n / 16 < 16 ^ width := Nat.div_lt_of_lt_mul (by rwa [pow_succ'] at h)
    have hread := ih hhigh
    rw [readHex?] at hread ⊢
    rw [fixedHex, List.foldlM_append, hread]
    change (hexValue? (hexDigit (n % 16))).map (16 * (n / 16) + ·) >>= pure = _
    rw [hexValue?_hexDigit _ (Nat.mod_lt n (by decide)), bind_pure, Option.map_some,
      Nat.div_add_mod]

end Text

/-! ### Code points -/

namespace Token

variable {t : Token} {cp : Nat}

/-- The token stands for a code point inside brackets and outside of them. -/
def Names (t : Token) (cp : Nat) : Prop :=
  t.kind ∈ [.char, .braceOpen, .braceClose, .escape, .hexEscape, .unicodeEscape] ∧
    t.literal = .ok cp

theorem Names.ofToken (h : t.Names cp) : ClassItem.ofToken t = .ok (.char cp t.start) := by
  obtain ⟨hkind, hliteral⟩ := h
  rw [ClassItem.ofToken_of_literal, hliteral]
  · rfl
  · intro hdash
    simp [hdash] at hkind
  · intro c hclass
    simp [hclass] at hkind

theorem Names.leaf (h : t.Names cp) {s : CharSet} (hs : CharSet.single cp = .ok s) : t.Leaf s := by
  obtain ⟨hkind, hliteral⟩ := h
  have hplain (hfirst : t.literal = .ok t.first.toNat) :
      CharSet.single t.first.toNat = .ok s := by
    rwa [← Except.ok.inj (hliteral.symm.trans hfirst)]
  have hnumber (hkind : t.kind = .hexEscape ∨ t.kind = .unicodeEscape) :
      ∃ n < alphabetSize, Text.readHex? (t.more.drop 1) = some n ∧ CharSet.single n = .ok s := by
    obtain ⟨hlt, hread⟩ := (Regex.literal_number hkind).mp hliteral
    exact ⟨cp, hlt, hread, hs⟩
  simp only [List.mem_cons, List.not_mem_nil, or_false] at hkind
  rcases hkind with hkind | hkind | hkind | hkind | hkind | hkind <;> simp only [Leaf, hkind]
  · exact hplain (by rw [literal, hkind])
  · exact hplain (by rw [literal, hkind])
  · exact hplain (by rw [literal, hkind])
  · cases hmore : t.more with
    | nil => simp [literal, hkind, hmore] at hliteral
    | cons c more =>
      simp only [literal, hkind, hmore, Except.ok.injEq] at hliteral
      exact ⟨c, rfl, hliteral ▸ hs⟩
  · exact hnumber (Or.inl hkind)
  · exact hnumber (Or.inr hkind)

theorem names_plain {c : Char} (h : plainKind c ∈ [.char, .braceOpen, .braceClose]) (start : Nat) :
    Names ⟨plainKind c, start, c, []⟩ c.toNat := by
  simp only [List.mem_cons, List.not_mem_nil, or_false] at h
  rcases h with h | h | h <;> exact ⟨by simp [h], by rw [literal, h]⟩

theorem names_escape {c : Char} (h : escapedCodePoint c = cp) (start : Nat) :
    Names ⟨.escape, start, '\\', [c]⟩ cp :=
  ⟨by simp, congrArg Except.ok h⟩

theorem names_number {kind : Kind} (hkind : kind = .hexEscape ∨ kind = .unicodeEscape) {c : Char}
    {digits : List Char} (hcp : cp < alphabetSize) (hread : Text.readHex? digits = some cp)
    (start : Nat) : Names ⟨kind, start, '\\', c :: digits⟩ cp := by
  refine ⟨?_, (Regex.literal_number hkind).mpr ⟨hcp, hread⟩⟩
  rcases hkind with rfl | rfl <;> simp

theorem scanFrom_escape {rest : List Char} {kind : Kind} (h : escapeKind rest = (kind, rest.length))
    (start : Nat) : scanFrom start ('\\' :: rest) = [⟨kind, start, '\\', rest⟩] := by
  have hlexeme : lexeme '\\' rest = (kind, rest.length) := h
  rw [scanFrom, hlexeme]
  dsimp only
  rw [List.take_length, List.drop_length, scanFrom]

end Token

theorem toNat_ofNat_printable : ∀ cp ≤ 0x7E, (Char.ofNat cp).toNat = cp := by
  decide

theorem escapeKind_reserved {c : Char} (h : isReserved c = true) :
    Token.escapeKind [c] = (.escape, 1) ∧ Token.escapedCodePoint c = c.toNat := by
  simp only [isReserved, List.mem_cons, List.not_mem_nil, or_false, decide_eq_true_eq] at h
  rcases h with rfl | rfl | rfl | rfl | rfl | rfl | rfl | rfl | rfl | rfl | rfl | rfl | rfl <;>
    decide

theorem plainKind_not_reserved {c : Char} (h : ¬ isReserved c = true) :
    Token.plainKind c ∈ [.char, .braceOpen, .braceClose] := by
  unfold Token.plainKind
  split <;> simp_all [isReserved]

theorem startsWithHex_fixedHex (width n : Nat) :
    Token.startsWithHex width (Text.fixedHex width n) = true := by
  have hlength := Text.length_fixedHex width n
  simp only [Token.startsWithHex, Bool.and_eq_true, decide_eq_true_eq, List.all_eq_true]
  refine ⟨hlength.ge, fun c hc ↦ Text.isHexDigit_of_mem_fixedHex (List.mem_of_mem_take hc)⟩

open Token in
/-- A code point is written as one token. -/
theorem exists_token_printCodePoint {cp : Nat} (h : cp < alphabetSize) (start : Nat) :
    ∃ t : Token, t.Names cp ∧ scanFrom start (printCodePoint cp) = [t] := by
  unfold printCodePoint
  split_ifs with hfeed hreturn hprintable hreserved hbyte
  · exact ⟨_, names_escape (c := 'n') hfeed.symm start, scanFrom_escape rfl start⟩
  · exact ⟨_, names_escape (c := 'r') hreturn.symm start, scanFrom_escape rfl start⟩
  · obtain ⟨hescape, hvalue⟩ := escapeKind_reserved hreserved
    rw [toNat_ofNat_printable cp hprintable.2] at hvalue
    exact ⟨_, names_escape hvalue start, scanFrom_escape hescape start⟩
  · have hnames := names_plain (plainKind_not_reserved hreserved) start
    rw [toNat_ofNat_printable cp hprintable.2] at hnames
    have hplain : Char.ofNat cp ≠ '\\' := by
      intro hbackslash
      exact hreserved (hbackslash ▸ by decide)
    exact ⟨_, hnames, by rw [scanFrom_cons hplain, scanFrom]⟩
  · have hread : Text.readHex? (Text.fixedHex 2 cp) = some cp :=
      Text.readHex?_fixedHex (Nat.lt_succ_of_le hbyte)
    refine ⟨_, names_number (Or.inl rfl) h hread start, scanFrom_escape ?_ start⟩
    rw [escapeKind, if_pos (startsWithHex_fixedHex 2 cp), List.length_cons, Text.length_fixedHex]
  · have hread : Text.readHex? (Text.fixedHex 6 cp) = some cp :=
      Text.readHex?_fixedHex (Nat.lt_trans h (by decide))
    refine ⟨_, names_number (Or.inr rfl) h hread start, scanFrom_escape ?_ start⟩
    rw [escapeKind, if_pos (startsWithHex_fixedHex 6 cp), List.length_cons, Text.length_fixedHex]

/-! ### Ranges as items of a class -/

/-- The token was written for the item. -/
def Token.Writes (t : Token) (i : ClassItem) : Prop :=
  (∃ cp, t.Names cp ∧ i = .char cp t.start) ∨ (t.kind = .dash ∧ i = .dash t.start)

theorem Token.Writes.ofToken {t : Token} {i : ClassItem} (h : t.Writes i) :
    ClassItem.ofToken t = .ok i := by
  rcases h with ⟨cp, hnames, rfl⟩ | ⟨hkind, rfl⟩
  · exact hnames.ofToken
  · rw [ClassItem.ofToken, hkind]

theorem Token.Writes.kind_not_mem {t : Token} {i : ClassItem} (h : t.Writes i) :
    t.kind ∉ [.bracketClose, .caret, .incomplete] := by
  rcases h with ⟨cp, ⟨hkind, _⟩, _⟩ | ⟨hkind, _⟩
  · intro hmem
    simp only [List.mem_cons, List.not_mem_nil, or_false] at hkind hmem
    rcases hmem with h | h | h <;> simp [h] at hkind
  · simp [hkind]

theorem kind_not_mem_of_writes {ts : List Token} {items : List ClassItem}
    (h : List.Forall₂ Token.Writes ts items) :
    ∀ t ∈ ts, t.kind ∉ [.bracketClose, .caret, .incomplete] :=
  ((List.forall₂_and_left ..).mp (h.imp fun _ _ hi ↦ ⟨hi.kind_not_mem, hi⟩)).1

/-- Texts that are written for items keep them when they are put together. -/
theorem writes_scanFrom_append {front back : List Char} {start : Nat}
    {items items' : List ClassItem}
    (hfront : List.Forall₂ Token.Writes (Token.scanFrom start front) items)
    (hback : List.Forall₂ Token.Writes (Token.scanFrom (start + byteLength front) back) items') :
    List.Forall₂ Token.Writes (Token.scanFrom start (front ++ back)) (items ++ items') := by
  rw [Token.scanFrom_append]
  · exact List.rel_append hfront hback
  · intro t ht hkind
    exact kind_not_mem_of_writes hfront t ht (by simp [hkind])

/-- The items that a range is written as. -/
inductive Block : List ClassItem → CodeRange → Prop where
  | one {r : CodeRange} (h : r.last = r.start) (position : Nat) :
      Block [.char r.start position] r
  | two {r : CodeRange} (h : r.last = r.start + 1) (position position' : Nat) :
      Block [.char r.start position, .char r.last position'] r
  | ends {r : CodeRange} (position between position' : Nat) :
      Block [.char r.start position, .dash between, .char r.last position'] r

theorem exists_writes_printCodePoint {cp : Nat} (h : cp < alphabetSize) (start : Nat) :
    ∃ position, List.Forall₂ Token.Writes (Token.scanFrom start (printCodePoint cp))
      [.char cp position] := by
  obtain ⟨t, hnames, hscan⟩ := exists_token_printCodePoint h start
  exact ⟨t.start, hscan ▸ .cons (Or.inl ⟨cp, hnames, rfl⟩) .nil⟩

theorem exists_block (r : CodeRange) (start : Nat) : ∃ items,
    List.Forall₂ Token.Writes (Token.scanFrom start r.print) items ∧ Block items r := by
  have hstop := r.start_lt_stop
  have hlast := r.last_add_one
  obtain ⟨position, hfirst⟩ := exists_writes_printCodePoint r.start_lt_alphabetSize start
  unfold CodeRange.print
  split_ifs with hsize
  · have hcases : r.size = 1 ∨ r.size = 2 := by
      unfold CodeRange.size at hsize ⊢
      omega
    rcases hcases with h | h
    · refine ⟨_, ?_, .one ?_ position⟩
      · simpa [h] using hfirst
      · unfold CodeRange.size at h
        omega
    · have hnext : r.last = r.start + 1 := by
        unfold CodeRange.size at h
        omega
      obtain ⟨position', hsecond⟩ := exists_writes_printCodePoint r.last_lt_alphabetSize
        (start + byteLength (printCodePoint r.start))
      have htext : (List.range' r.start 2).flatMap printCodePoint =
          printCodePoint r.start ++ printCodePoint r.last := by
        simp [List.range', hnext]
      refine ⟨_, ?_, .two hnext position position'⟩
      rw [h, htext]
      exact writes_scanFrom_append hfirst hsecond
  · obtain ⟨position', hsecond⟩ := exists_writes_printCodePoint r.last_lt_alphabetSize
      (start + byteLength (printCodePoint r.start) + 1)
    refine ⟨_, writes_scanFrom_append hfirst ?_,
      .ends position (start + byteLength (printCodePoint r.start)) position'⟩
    rw [Token.scanFrom_cons (by decide)]
    exact .cons (Or.inr ⟨rfl, rfl⟩) hsecond

theorem inclusive_last (r : CodeRange) : CodeRange.inclusive r.start r.last = .ok r := by
  have hstop := r.start_lt_stop
  have hlast := r.last_add_one
  rw [CodeRange.inclusive_eq_ok (by omega) r.last_lt_alphabetSize]
  simp only [hlast]

/-- The items do not start with a dash, so the item in front of them is no end of a range. -/
def NoLeadingDash (items : List ClassItem) : Prop :=
  ∀ position rest, items ≠ .dash position :: rest

theorem rangesAll_char_cons {cp : Nat} (position : Nat) {r : CodeRange} {items : List ClassItem}
    {rs : List CodeRange} (hr : CodeRange.single cp = .ok r) (hitems : NoLeadingDash items)
    (hrs : ClassItem.rangesAll items = .ok rs) :
    ClassItem.rangesAll (.char cp position :: items) = .ok (r :: rs) := by
  rw [ClassItem.rangesAll]
  · rw [ClassItem.ranges, hr, hrs]
    rfl
  · intro between last rest heq
    exact hitems between (last :: rest) heq

theorem Block.noLeadingDash {items : List ClassItem} {r : CodeRange} (h : Block items r)
    (more : List ClassItem) : NoLeadingDash (items ++ more) := by
  intro position rest heq
  cases h <;> cases heq

/-- The items of a range stand for its code points, whatever items follow. -/
theorem exists_rangesAll_append {items more : List ClassItem} {r : CodeRange} {rs : List CodeRange}
    (h : Block items r) (hmore : NoLeadingDash more) (hrs : ClassItem.rangesAll more = .ok rs) :
    ∃ front, ClassItem.rangesAll (items ++ more) = .ok (front ++ rs) ∧
      ∀ cp, Covers front cp ↔ cp ∈ r := by
  have hr := inclusive_last r
  have hstop := r.start_lt_stop
  have hlast := r.last_add_one
  cases h with
  | one h position =>
    rw [h] at hr
    exact ⟨[r], rangesAll_char_cons position hr hmore hrs, fun cp ↦ by simp⟩
  | two h position position' =>
    obtain ⟨x, hx, hmemx⟩ := CodeRange.exists_single r.start_lt_alphabetSize
    obtain ⟨y, hy, hmemy⟩ := CodeRange.exists_single r.last_lt_alphabetSize
    have hrest := rangesAll_char_cons position' hy hmore hrs
    refine ⟨[x, y], rangesAll_char_cons position hx (by rintro _ _ ⟨⟩) hrest, fun cp ↦ ?_⟩
    simp only [covers_cons, CodeRange.covers_nil, or_false, hmemx, hmemy, CodeRange.mem_def]
    omega
  | ends position between position' =>
    have hbetween : ClassItem.rangeBetween (.char r.start position) (.char r.last position') =
        .ok r := by
      change (if r.last < r.start then _ else _) = _
      rw [if_neg (by omega)]
      exact Regex.liftRange_eq_ok_iff.mpr hr
    refine ⟨[r], ?_, fun cp ↦ by simp⟩
    change ClassItem.rangesAll (_ :: _ :: _ :: more) = _
    rw [ClassItem.rangesAll, hbetween, hrs]
    rfl

/-- What stands between the brackets is read as the ranges it was written for. -/
theorem exists_items_printed (ranges : List CodeRange) (start : Nat) : ∃ items rs,
    List.Forall₂ Token.Writes (Token.scanFrom start (ranges.flatMap CodeRange.print)) items ∧
      NoLeadingDash items ∧ ClassItem.rangesAll items = .ok rs ∧
      ∀ cp, Covers rs cp ↔ Covers ranges cp := by
  induction ranges generalizing start with
  | nil =>
    refine ⟨[], [], ?_, nofun, rfl, fun cp ↦ Iff.rfl⟩
    rw [List.flatMap_nil, Token.scanFrom]
    exact .nil
  | cons r ranges ih =>
    obtain ⟨items, hwrites, hblock⟩ := exists_block r start
    obtain ⟨more, rs, hmore, hleading, hrs, hcovers⟩ := ih (start + byteLength r.print)
    obtain ⟨front, hfront, hmem⟩ := exists_rangesAll_append hblock hleading hrs
    refine ⟨items ++ more, front ++ rs, ?_, hblock.noLeadingDash more, hfront, fun cp ↦ ?_⟩
    · rw [List.flatMap_cons]
      exact writes_scanFrom_append hwrites hmore
    · rw [covers_append, hmem, hcovers, covers_cons]

/-! ### Sets -/

namespace CharSet

/-- A set that lacks some code point has a complement with ranges. -/
theorem ranges_complement_ne_nil {s : CharSet} (hcanonical : s.IsCanonical) (h : s ≠ full) :
    s.complement.ranges ≠ [] := by
  intro hnil
  have hfull : full.IsCanonical := by decide
  refine h (hcanonical.eq_of_mem_iff hfull fun cp ↦ ?_)
  rw [mem_full]
  refine ⟨lt_alphabetSize_of_mem, fun hlt ↦ ?_⟩
  by_contra hnot
  exact ranges_ne_nil_of_mem (mem_complement.mpr ⟨hlt, hnot⟩) hnil

theorem exists_ranges_eq_singleton {s : CharSet} (hcanonical : s.IsCanonical) (h : s.size = 1) :
    ∃ r : CodeRange, s.ranges = [r] ∧ r.size = 1 := by
  have hpos (r : CodeRange) : 0 < r.size := Nat.sub_pos_of_lt r.start_lt_stop
  rw [size, canonical_eq_self hcanonical] at h
  cases hranges : s.ranges with
  | nil =>
    rw [hranges] at h
    cases h
  | cons r rest =>
    rw [hranges, List.foldr_cons] at h
    cases rest with
    | nil => exact ⟨r, rfl, h⟩
    | cons r' rest =>
      rw [List.foldr_cons] at h
      have hr := hpos r
      have hr' := hpos r'
      omega

/-- A set of one code point is written as the code point. -/
theorem exists_printBody_eq_of_size_eq_one {s : CharSet} (hcanonical : s.IsCanonical)
    (h : s.size = 1) :
    ∃ cp < alphabetSize, s.printBody = printCodePoint cp ∧ CharSet.single cp = .ok s := by
  obtain ⟨r, hranges, hone⟩ := exists_ranges_eq_singleton hcanonical h
  have hstart : r.last = r.start := by
    unfold CodeRange.size at hone
    unfold CodeRange.last
    omega
  have hr := inclusive_last r
  rw [hstart] at hr
  refine ⟨r.start, r.start_lt_alphabetSize, ?_, ?_⟩
  · simp [printBody, hranges, CodeRange.print, hone]
  · change (CodeRange.inclusive r.start r.start).map ofRange = _
    rw [hr]
    cases s
    simp only at hranges
    subst hranges
    rfl

/-- What stands between the brackets, with the closing one. -/
theorem exists_scanFrom_printBody {s : CharSet} (h : s.ranges ≠ []) (start : Nat) :
    ∃ first body items rs, Token.scanFrom start (s.printBody ++ [']']) =
        first :: body ++ [⟨.bracketClose, start + byteLength s.printBody, ']', []⟩] ∧
      List.Forall₂ Token.Writes (first :: body) items ∧ ClassItem.rangesAll items = .ok rs ∧
      ∀ cp, cp ∈ ofRanges rs ↔ cp ∈ s := by
  obtain ⟨items, rs, hwrites, _, hrs, hcovers⟩ := exists_items_printed s.ranges start
  have hmem (cp : Nat) : cp ∈ ofRanges rs ↔ cp ∈ s := mem_ofRanges.trans (hcovers cp)
  have hscan : Token.scanFrom start (s.printBody ++ [']']) = Token.scanFrom start s.printBody ++
      [⟨.bracketClose, start + byteLength s.printBody, ']', []⟩] := by
    rw [Token.scanFrom_append, Token.scanFrom_cons (by decide), Token.scanFrom]
    · rfl
    · intro t ht hkind
      exact kind_not_mem_of_writes hwrites t ht (by simp [hkind])
  cases htokens : Token.scanFrom start s.printBody with
  | nil =>
    -- no tokens would leave no ranges
    obtain ⟨cp, hcp⟩ := exists_mem_of_ranges_ne_nil h
    change List.Forall₂ _ (Token.scanFrom start s.printBody) items at hwrites
    rw [htokens, List.forall₂_nil_left_iff] at hwrites
    rw [hwrites] at hrs
    obtain rfl := Except.ok.inj hrs
    exact absurd (mem_ofRanges.mp ((hmem cp).mpr hcp)) (CodeRange.covers_nil cp)
  | cons first body => exact ⟨first, body, items, rs, htokens ▸ hscan, htokens ▸ hwrites, hrs, hmem⟩

open Regex in
theorem gives_classSet_printBody {s : CharSet} (h : s.ranges ≠ []) (opened start : Nat)
    (negated : Bool) : Gives (classSet opened negated (Token.scanFrom start (s.printBody ++ [']'])))
      (if negated then s.complement else s.canonical, []) := by
  obtain ⟨first, body, items, rs, hscan, hwrites, hrs, hmem⟩ := exists_scanFrom_printBody h start
  simp only [gives_classSet, classSpan_eq_iff]
  refine ⟨_, _, items, rs, ⟨first, body, rfl, hscan, rfl, fun t ht hkind ↦ ?_⟩,
    hwrites.imp fun _ _ hi ↦ hi.ofToken, hrs, ?_⟩
  · exact kind_not_mem_of_writes hwrites t (List.mem_cons_of_mem _ ht) (by simp [hkind])
  · rw [canonical_eq_of_mem_iff hmem, complement_eq_of_mem_iff hmem]

open Regex in
theorem gives_bracketed_printBody {s : CharSet} (h : s.ranges ≠ []) (opened start : Nat) :
    Gives (bracketed opened (Token.scanFrom start (s.printBody ++ [']']))) (s.canonical, []) := by
  refine gives_bracketed.mpr (Or.inl ⟨?_, gives_classSet_printBody h opened start false⟩)
  obtain ⟨first, body, items, rs, hscan, hwrites, _⟩ := exists_scanFrom_printBody h start
  rw [hscan, List.cons_append, startsWith_cons]
  intro hkind
  exact kind_not_mem_of_writes hwrites first List.mem_cons_self (by simp [hkind])

end CharSet

namespace Regex

open Grammar

/-- The text of a set that has code points is read as the set in canonical form. -/
theorem parse_print {s : CharSet} (h : s.ranges ≠ []) : parse s.print = .ok (.set s.canonical) := by
  have hcanonical := CharSet.isCanonical_canonical s
  have hne := CharSet.ranges_canonical_ne_nil h
  have hself := CharSet.canonical_eq_self hcanonical
  have hscan : Token.scan s.print = Token.scanFrom 0 s.canonical.printCanonical := by
    rw [Token.scan, CharSet.print, String.toList_ofList]
  unfold CharSet.printCanonical at hscan
  split_ifs at hscan with hempty hfull hend hsize
  · exact absurd (List.isEmpty_iff.mp hempty) hne
  · rw [Token.scanFrom_cons (by decide), Token.scanFrom] at hscan
    exact parseWithin_of_leaf hscan hfull
  · have hclass := CharSet.gives_classSet_printBody
      (CharSet.ranges_complement_ne_nil hcanonical hfull) 0 2 true
    rw [if_pos rfl, CharSet.complement_complement, hself] at hclass
    rw [List.cons_append, List.cons_append, Token.scanFrom_cons (by decide),
      Token.scanFrom_cons (by decide)] at hscan
    exact parseWithin_of_bracketed hscan rfl
      (gives_bracketed.mpr (Or.inr ⟨_, _, rfl, rfl, hclass⟩))
  · obtain ⟨cp, hlt, hbody, hsingle⟩ :=
      CharSet.exists_printBody_eq_of_size_eq_one hcanonical hsize
    obtain ⟨t, hnames, ht⟩ := exists_token_printCodePoint hlt 0
    rw [hbody, ht] at hscan
    exact parseWithin_of_leaf hscan (hnames.leaf hsingle)
  · have hclass := CharSet.gives_bracketed_printBody hne 0 1
    rw [hself] at hclass
    rw [List.cons_append, Token.scanFrom_cons (by decide)] at hscan
    exact parseWithin_of_bracketed hscan rfl hclass

/-- Two ranges that overlap, and the end of the alphabet: the text is a negated class. -/
theorem parse_print_overlapping :
    parse (CharSet.print ⟨[⟨0x2D, 0x30, by decide, by decide⟩, ⟨0x2F, 0x5E, by decide, by decide⟩,
        ⟨0x1FFFFF, 0x200000, by decide, by decide⟩], by decide⟩) =
      .ok (.set ⟨[⟨0x2D, 0x5E, by decide, by decide⟩,
        ⟨0x1FFFFF, 0x200000, by decide, by decide⟩], by decide⟩) :=
  parse_print (by decide)

end Regex

end SignalRegex
