import SignalRegex.Proofs.ClassMeaning
import SignalRegex.Proofs.ReaderFailures
import SignalRegex.Proofs.UntakenDetours

/-!
Every error of a pattern has a place in it.

The errors of literals and of classes stand at one of their tokens (`literal_error`,
`bracketed_error`), and so do all other reasons for which reading is stuck (`Stuck.standsAt`).
-/

set_option autoImplicit false

namespace SignalRegex

/-! ### Literals and classes -/

namespace Token

variable {t : Token} {cp : Nat} {e : CompileError}

theorem literal_lt (h : t.literal = .ok cp) : cp < alphabetSize := by
  cases hkind : t.kind with
  | hexEscape => exact ((Regex.literal_number (Or.inl hkind)).mp h).1
  | unicodeEscape => exact ((Regex.literal_number (Or.inr hkind)).mp h).1
  | escape =>
    cases hmore : t.more with
    | nil => simp [literal, hkind, hmore] at h
    | cons c more =>
      simp only [literal, hkind, hmore, Except.ok.injEq] at h
      exact h ▸ escapedCodePoint_lt c
  | incomplete => simp [literal, hkind] at h
  | _ =>
    simp only [literal, hkind, Except.ok.injEq] at h
    exact h ▸ toNat_lt_alphabetSize t.first

theorem exists_single_of_literal (h : t.literal = .ok cp) :
    ∃ s, ClassItem.liftRange (CharSet.single cp) = .ok s := by
  obtain ⟨r, hr, _⟩ := CodeRange.exists_single (literal_lt h)
  rw [CharSet.single, hr]
  exact ⟨_, rfl⟩

/-- A literal of a token is missing or too large. -/
theorem literal_error (hspells : Spells t.kind t.text) (h : t.literal = .error e) :
    e = .malformed t.start .incompleteEscape ∨ e = .malformed t.start .codePointOutOfRange := by
  have hnumber (hkind : t.kind = .hexEscape ∨ t.kind = .unicodeEscape)
      (hdigits : (t.more.drop 1).all Text.isHexDigit = true) :
      e = .malformed t.start .codePointOutOfRange := by
    obtain ⟨cp, hread⟩ := Text.exists_readHex? hdigits
    rw [Regex.literal_of_readHex? hkind hread] at h
    split_ifs at h
    exact (Except.error.inj h).symm
  obtain ⟨kind, start, first, more⟩ := t
  change Spells kind (first :: more) at hspells
  cases hspells with
  | plain hc =>
    rw [literal_of_not_isEscape (isEscape_plainKind first)] at h
    cases h
  | hex _ hdigits => exact Or.inr (hnumber (Or.inl rfl) hdigits)
  | unicode _ hdigits => exact Or.inr (hnumber (Or.inr rfl) hdigits)
  | shorthand s => cases h
  | escape hc => cases h
  | short hc => exact Or.inl (Except.error.inj h).symm
  | lone => exact Or.inl (Except.error.inj h).symm

end Token

theorem exists_mem_of_mapM_eq_error {ε α β : Type} {f : α → Except ε β} {as : List α} {e : ε}
    (h : as.mapM f = .error e) : ∃ a ∈ as, f a = .error e := by
  induction as with
  | nil => cases h
  | cons a as ih =>
    rw [List.mapM_cons] at h
    rcases bind_eq_error_iff.mp h with h | ⟨b, _, h⟩
    · exact ⟨a, List.mem_cons_self, h⟩
    · obtain ⟨a', hmem, ha'⟩ := ih (eq_error_of_bind h fun _ ↦ ⟨_, rfl⟩)
      exact ⟨a', List.mem_cons_of_mem _ hmem, ha'⟩

namespace ClassItem

variable {i j : ClassItem} {items : List ClassItem} {text : List Char} {e : CompileError}

/-- The place of an item. -/
def position : ClassItem → Nat
  | char _ position | dash position | set _ position => position

theorem StandsFor.position_eq {position : Nat} (h : StandsFor position text i) :
    i.position = position := by
  cases h <;> rfl

theorem endpoint_cases (i : ClassItem) :
    i.endpoint = .error (.malformed i.position .malformedRange) ∨
      ∃ cp, i.endpoint = .ok (cp, i.position) ∧ i.codePoint? = some cp := by
  cases i with
  | char cp position => exact Or.inr ⟨cp, rfl, rfl⟩
  | dash position => exact Or.inr ⟨_, rfl, rfl⟩
  | set s position => exact Or.inl rfl

theorem rangeBetween_error (hj : j.Fits) (h : rangeBetween i j = .error e) :
    e = .malformed i.position .malformedRange ∨ e = .malformed j.position .malformedRange := by
  rcases i.endpoint_cases with hi | ⟨low, hi, hlow⟩
  · rw [rangeBetween, hi] at h
    exact Or.inl (Except.error.inj h).symm
  · rcases j.endpoint_cases with hj' | ⟨high, hj', hhigh⟩
    · rw [rangeBetween, hi, hj'] at h
      exact Or.inr (Except.error.inj h).symm
    · rcases Nat.lt_or_ge high low with hlt | hle
      · rw [rangeBetween, hi, hj'] at h
        change (if high < low then _ else _) = _ at h
        rw [if_pos hlt] at h
        exact Or.inl (Except.error.inj h).symm
      · obtain ⟨r, hr, _⟩ := exists_rangeBetween hlow hhigh hle hj
        cases hr.symm.trans h

theorem ofToken_error {t : Token} (h : ofToken t = .error e) : t.literal = .error e := by
  unfold ofToken at h
  split at h
  · cases h
  · cases h
  · cases hliteral : t.literal with
    | error e' =>
      rw [hliteral] at h
      exact congrArg Except.error (Except.error.inj h)
    | ok cp =>
      rw [hliteral] at h
      cases h

/-- Items inside the alphabet have all their ranges, unless one of them is malformed. -/
theorem rangesAll_error (hfits : ∀ i ∈ items, i.Fits) (h : rangesAll items = .error e) :
    ∃ i ∈ items, e = .malformed i.position .malformedRange := by
  induction items using rangesAll.induct with
  | case1 first position last items ih =>
    simp only [List.forall_mem_cons] at hfits
    rw [rangesAll] at h
    rcases bind_eq_error_iff.mp h with h | ⟨r, _, h⟩
    · rcases rangeBetween_error hfits.2.2.1 h with he | he
      · exact ⟨first, by simp, he⟩
      · exact ⟨last, by simp, he⟩
    · obtain ⟨i, hmem, he⟩ := ih hfits.2.2.2 (eq_error_of_bind h fun _ ↦ ⟨_, rfl⟩)
      exact ⟨i, by simp [hmem], he⟩
  | case2 item items hdash ih =>
    simp only [List.forall_mem_cons] at hfits
    rw [rangesAll] at h
    · rcases bind_eq_error_iff.mp h with h | ⟨rs, _, h⟩
      · obtain ⟨rs, hrs, _⟩ := exists_ranges hfits.1
        cases hrs.symm.trans h
      · obtain ⟨i, hmem, he⟩ := ih hfits.2 (eq_error_of_bind h fun _ ↦ ⟨_, rfl⟩)
        exact ⟨i, by simp [hmem], he⟩
    · exact hdash
  | case3 => cases h

end ClassItem

theorem Fault.message_injective : Function.Injective Fault.message := by
  intro fault fault' h
  cases fault <;> cases fault' <;> simp [message] at h ⊢

namespace CompileError

/-- The error is a fault of the pattern at the given place, or a construct that is refused there.
Two faults are never found. -/
def StandsAt (position : Nat) (e : CompileError) : Prop :=
  (∃ fault, e = .malformed position fault ∧ fault ≠ .trailingInput ∧ fault ≠ .invalidEscape) ∨
    ∃ feature, e = .unsupported position feature

end CompileError

namespace Regex

open ClassItem (StandsFor)

variable {ts : List Token} {opened : Nat} {e : CompileError}

/-- The faults of classes. -/
def classFaults : List Fault :=
  [.unterminatedClass, .malformedRange, .incompleteEscape, .codePointOutOfRange]

/-- The error is a fault of a class, at its opening or at one of its tokens. -/
def ClassError (opened : Nat) (ts : List Token) (e : CompileError) : Prop :=
  ∃ fault ∈ classFaults, e = .malformed opened fault ∨ ∃ t ∈ ts, e = .malformed t.start fault

theorem exists_standsFor_of_mapM {items : List ClassItem}
    (hspells : ∀ t ∈ ts, Token.Spells t.kind t.text) (h : ts.mapM ClassItem.ofToken = .ok items) :
    ∀ i ∈ items, ∃ t ∈ ts, StandsFor t.start t.text i := by
  have hitems := (List.forall₂_and_left _ _).mpr ⟨fun t ht ↦ ht, mapM_eq_ok_iff.mp h⟩
  have hstands : List.Forall₂ (fun i _ ↦ (∃ t ∈ ts, StandsFor t.start t.text i) ∧ True) items ts :=
    (hitems.imp fun t i h ↦
      ⟨⟨t, h.1, (ClassItem.ofToken_eq_ok_iff (hspells t h.1)).mp h.2⟩, trivial⟩).flip
  exact ((List.forall₂_and_left _ _).mp hstands).1

theorem classSet_error (negated : Bool) (hspells : ∀ t ∈ ts, Token.Spells t.kind t.text)
    (h : classSet opened negated ts = .error e) : ClassError opened ts e := by
  have hspan : ∀ t ∈ (classSpan ts).1, Token.Spells t.kind t.text :=
    fun t ht ↦ hspells t (mem_of_mem_classSpan ht)
  rcases bind_eq_error_iff.mp h with h | ⟨items, hitems, h⟩
  · obtain ⟨t, ht, h⟩ := exists_mem_of_mapM_eq_error h
    rcases Token.literal_error (hspan t ht) (ClassItem.ofToken_error h) with he | he
    · exact ⟨.incompleteEscape, by decide, Or.inr ⟨t, mem_of_mem_classSpan ht, he⟩⟩
    · exact ⟨.codePointOutOfRange, by decide, Or.inr ⟨t, mem_of_mem_classSpan ht, he⟩⟩
  · split at h
    · exact ⟨.unterminatedClass, by decide, Or.inl (Except.error.inj h).symm⟩
    · have hstands := exists_standsFor_of_mapM hspan hitems
      have hfits : ∀ i ∈ items, i.Fits := fun i hi ↦ (hstands i hi).elim fun t ht ↦ ht.2.fits
      have hranges := eq_error_of_bind h fun _ ↦ ⟨_, rfl⟩
      obtain ⟨i, hi, he⟩ := ClassItem.rangesAll_error hfits hranges
      obtain ⟨t, ht, hi⟩ := hstands i hi
      rw [hi.position_eq] at he
      exact ⟨.malformedRange, by decide, Or.inr ⟨t, mem_of_mem_classSpan ht, he⟩⟩

theorem bracketed_error (hspells : ∀ t ∈ ts, Token.Spells t.kind t.text)
    (h : bracketed opened ts = .error e) : ClassError opened ts e := by
  cases ts with
  | nil => exact classSet_error false hspells h
  | cons t ts =>
    unfold bracketed at h
    dsimp only at h
    split_ifs at h with hcaret
    · have hclass := eq_error_of_bind h fun _ ↦ ⟨_, rfl⟩
      obtain ⟨fault, hfault, he⟩ := classSet_error true (List.forall_mem_cons.mp hspells).2 hclass
      refine ⟨fault, hfault, he.imp_right ?_⟩
      rintro ⟨u, hu, he⟩
      exact ⟨u, List.mem_cons_of_mem _ hu, he⟩
    · exact classSet_error false hspells h

end Regex

namespace Grammar

open Regex CompileError

variable {sourceEnd limit : Nat} {groups ts : List Token} {e : CompileError}

/-- The place is the end of a pattern or the start of one of the tokens. -/
def IsMark (sourceEnd : Nat) (ts : List Token) (position : Nat) : Prop :=
  position = sourceEnd ∨ ∃ t ∈ ts, position = t.start

theorem isMark_offset : IsMark sourceEnd ts (offset sourceEnd ts) := by
  cases ts with
  | nil => exact Or.inl rfl
  | cons t ts => exact Or.inr ⟨t, List.mem_cons_self, rfl⟩

/-- Reading is stuck with an error at the end of the pattern, at a token that comes next, or at an
open parenthesis. -/
theorem Stuck.standsAt (hspells : ∀ t ∈ ts, Token.Spells t.kind t.text)
    (h : Stuck sourceEnd limit groups ts e) :
    ∃ position, IsMark sourceEnd (groups ++ ts) position ∧ e.StandsAt position := by
  have hhere {t : Token} (ht : t ∈ groups ++ ts) (he : e.StandsAt t.start) :
      ∃ position, IsMark sourceEnd (groups ++ ts) position ∧ e.StandsAt position :=
    ⟨t.start, Or.inr ⟨t, ht, rfl⟩, he⟩
  cases h with
  | expected hends =>
    refine ⟨_, isMark_offset.imp_right ?_, Or.inl ⟨_, rfl, by decide, by decide⟩⟩
    rintro ⟨t, ht, hposition⟩
    exact ⟨t, List.mem_append_right _ ht, hposition⟩
  | modifier => exact hhere (by simp) (Or.inr ⟨_, rfl⟩)
  | badClass hkind hclass =>
    obtain ⟨fault, hfault, he⟩ := bracketed_error (List.forall_mem_cons.mp hspells).2 hclass
    have hknown : fault ≠ .trailingInput ∧ fault ≠ .invalidEscape := by
      revert hfault
      cases fault <;> decide
    rcases he with rfl | ⟨t, ht, rfl⟩
    · exact hhere (by simp) (Or.inl ⟨_, rfl, hknown⟩)
    · exact hhere (by simp [ht]) (Or.inl ⟨_, rfl, hknown⟩)
  | badLiteral hliteral =>
    rcases Token.literal_error (List.forall_mem_cons.mp hspells).1 hliteral with rfl | rfl
    · exact hhere (by simp) (Or.inl ⟨_, rfl, by decide, by decide⟩)
    · exact hhere (by simp) (Or.inl ⟨_, rfl, by decide, by decide⟩)
  | badCodePoint hliteral hrange =>
    obtain ⟨s, hs⟩ := Token.exists_single_of_literal hliteral
    cases hs.symm.trans hrange
  | unterminated hgroups =>
    exact hhere (by simp [List.mem_of_mem_head? hgroups]) (Or.inl ⟨_, rfl, by decide, by decide⟩)
  | anchor | bound | lazyQuantifier => exact hhere (by simp) (Or.inr ⟨_, rfl⟩)
  | bareQuantifier | tooDeep | secondQuantifier | unbalanced =>
    exact hhere (by simp) (Or.inl ⟨_, rfl, by decide, by decide⟩)

/-- The places of the errors of a pattern are among the boundaries of its characters. -/
theorem isValid_of_isMark {source : String} {position : Nat}
    (h : IsMark source.utf8ByteSize (Token.scan source) position) :
    String.Pos.Raw.IsValid source ⟨position⟩ := by
  rcases h with rfl | ⟨t, ht, rfl⟩
  · exact byteLength_toList source ▸ isValid_byteLength (List.append_nil _).symm
  · obtain ⟨front, rest, hsource, hstart, _⟩ := Token.exists_written_of_mem_scan ht
    rw [List.append_assoc] at hsource
    exact hstart ▸ isValid_byteLength hsource

/-- A pattern that is not read has a place where reading is stuck. -/
theorem exists_stuck_of_parseWithin {source : String} (h : parseWithin limit source = .error e) :
    ∃ front rest groups, Token.scan source = front ++ rest ∧
      (Place.outside []).behind front = .outside groups ∧
      (∀ t ∈ rest, Token.Spells t.kind t.text) ∧
      Stuck (byteLength source.toList) limit groups rest e := by
  obtain ⟨front, rest, groups, hscan, hplace, hstuck⟩ := fails_of_parseWithin h
  refine ⟨front, rest, groups, hscan, hplace, fun t ht ↦ ?_, hstuck⟩
  have hmem : t ∈ Token.scan source := hscan ▸ List.mem_append_right _ ht
  exact Token.spells_of_mem_scanFrom hmem

/-- An error stands at the end of the pattern or at one of its tokens. -/
theorem exists_standsAt_of_parseWithin {source : String} (h : parseWithin limit source = .error e) :
    ∃ position, IsMark source.utf8ByteSize (Token.scan source) position ∧ e.StandsAt position := by
  obtain ⟨front, rest, groups, hscan, hplace, hspells, hstuck⟩ := exists_stuck_of_parseWithin h
  obtain ⟨position, hmark, he⟩ := hstuck.standsAt hspells
  rw [byteLength_toList] at hmark
  refine ⟨position, hmark.imp_right ?_, he⟩
  rintro ⟨t, ht, hposition⟩
  refine ⟨t, ?_, hposition⟩
  rw [hscan]
  rcases List.mem_append.mp ht with ht | ht
  · have hfront : t ∈ ((Place.outside []).behind front).groups := hplace ▸ ht
    exact List.mem_append_left _ ((Place.mem_of_mem_groups hfront).resolve_right List.not_mem_nil)
  · exact List.mem_append_right _ ht

end Grammar

namespace Regex

open Grammar

/-- Whatever the limit on nesting, a pattern that is not read is malformed at a place of its own or
has a construct there that is refused. The place is its end or the start of one of its tokens, so it
lies between two characters. Nothing is ever left behind a pattern, and no number of an escape is
beyond reading. No atom is asked for where a sequence has ended, no literal is empty and no
shorthand is unknown: what would be answered there makes no difference. -/
theorem errors_positioned_and_never_internal (limit : Nat) (source : String) :
    (∀ e, parseWithin limit source = .error e →
      ∃ position, (position = source.utf8ByteSize ∨ ∃ t ∈ Token.scan source, position = t.start) ∧
        String.Pos.Raw.IsValid source ⟨position⟩ ∧
        ((∃ fault, e = .malformed position fault ∧ fault.message ≠ "unexpected trailing input" ∧
            fault.message ≠ "invalid escape sequence") ∨
          ∃ feature, e = .unsupported position feature)) ∧
    ∀ d : Detour, d.parseWithin limit source = parseWithin limit source := by
  refine ⟨fun e h ↦ ?_, fun d ↦ d.parseWithin_eq limit source⟩
  obtain ⟨position, hmark, he⟩ := exists_standsAt_of_parseWithin h
  refine ⟨position, hmark, isValid_of_isMark hmark, he.imp_left ?_⟩
  rintro ⟨fault, rfl, htrailing, hescape⟩
  exact ⟨fault, rfl, Fault.message_injective.ne htrailing, Fault.message_injective.ne hescape⟩

/-- The second star stands behind a character of two bytes. -/
theorem errors_positioned_and_never_internal_stars :
    ∃ e, parseWithin 0 "é**" = .error e ∧
      ∃ position,
        (position = "é**".utf8ByteSize ∨ ∃ t ∈ Token.scan "é**", position = t.start) ∧
        String.Pos.Raw.IsValid "é**" ⟨position⟩ := by
  have hfails : (parseWithin 0 "é**").toBool = false := by decide +kernel
  cases h : parseWithin 0 "é**" with
  | ok r =>
    rw [h] at hfails
    cases hfails
  | error e =>
    obtain ⟨position, hmark, hvalid, _⟩ := (errors_positioned_and_never_internal 0 _).1 e h
    exact ⟨e, rfl, position, hmark, hvalid⟩

end Regex

end SignalRegex
