import SignalRegex.Proofs.ExactTokens
import SignalRegex.Proofs.RelatedReaders

/-!
Reading with detours.

A reader with a detour takes the text of a token from the pattern, between the places where the
token starts and stops, and answers in a way of its own where reading is not meant to get: where an
atom is asked for and the sequence has ended, where a literal has no character, and where a
shorthand is none of the three (`Detour`).

No detour is taken. The text of a token between its places is the text it has
(`textIn_of_mem_scan`), so it is not empty and, where the token is a shorthand, one of three. An
atom is asked for only where a sequence has not ended. Whatever the detours answer, a pattern is
therefore read as it is without them (`parseWithin_eq`).
-/

set_option autoImplicit false

namespace SignalRegex

/-- The characters of a text between two byte offsets. -/
def slice (start stop : Nat) : List Char → List Char
  | [] => []
  | c :: text =>
    if start = 0 then
      if stop = 0 then [] else c :: slice 0 (stop - c.utf8Size) text
    else slice (start - c.utf8Size) (stop - c.utf8Size) text

/-- The text of a token in a pattern. -/
def Token.textIn (source : List Char) (t : Token) : List Char :=
  slice t.start t.stop source

theorem length_lt_cons (t : Token) (ts : List Token) : ts.length < (t :: ts).length :=
  Nat.lt_succ_self _

theorem length_lt_of_classSpan {t : Token} {ts rest : List Token}
    (h : (classSpan ts).2 = t :: rest) : rest.length < ts.length := by
  have hlength := length_classSpan_le ts
  rw [h] at hlength
  exact hlength

namespace Regex

/-- What to answer where reading is not meant to get. -/
structure Detour where
  ended : TokenReader Regex
  empty : Token → Except CompileError Nat
  unknown : Token → Except CompileError CharSet

namespace Detour

variable (d : Detour) (source : List Char)

def literal (t : Token) : Except CompileError Nat :=
  match t.kind with
  | .hexEscape | .unicodeEscape =>
    match Text.readHex? ((t.textIn source).drop 2) with
    | none => .error (.malformed t.start .invalidEscape)
    | some cp =>
      if cp < alphabetSize then .ok cp else .error (.malformed t.start .codePointOutOfRange)
  | .escape =>
    match (t.textIn source).drop 1 with
    | [] => .error (.malformed t.start .incompleteEscape)
    | c :: _ => .ok (Token.escapedCodePoint c)
  | .incomplete => .error (.malformed t.start .incompleteEscape)
  | _ =>
    match t.textIn source with
    | [] => d.empty t
    | c :: _ => .ok c.toNat

def shorthand (t : Token) : Except CompileError CharSet :=
  match t.textIn source with
  | ['\\', 'd'] => .ok Shorthand.digit.charset
  | ['\\', 'w'] => .ok Shorthand.word.charset
  | ['\\', 's'] => .ok Shorthand.space.charset
  | _ => d.unknown t

def classItem (t : Token) : Except CompileError ClassItem :=
  match t.kind with
  | .dash => .ok (.dash t.start)
  | .classEscape _ => (d.shorthand source t).map (.set · t.start)
  | _ => (d.literal source t).map (.char · t.start)

def classSet (opened : Nat) (negated : Bool) (ts : List Token) :
    Except CompileError (Parsed CharSet ts) := do
  let items ← (classSpan ts).1.mapM (d.classItem source)
  match h : (classSpan ts).2 with
  | [] => throw (.malformed opened .unterminatedClass)
  | _ :: rest =>
    let ranges ← ClassItem.rangesAll items
    let s := CharSet.ofRanges ranges
    return ⟨(if negated then s.complement else s.canonical, rest), length_lt_of_classSpan h⟩

def bracketed (opened : Nat) : TokenReader CharSet
  | [] => d.classSet source opened false []
  | t :: rest =>
    if t.kind = .caret then do
      let p ← d.classSet source opened true rest
      return ⟨p.1, Nat.lt_succ_of_lt p.2⟩
    else d.classSet source opened false (t :: rest)

def atom (sourceEnd : Nat) (nested : Nat → TokenReader Regex) : TokenReader Regex
  | [] => d.ended []
  | t :: rest =>
    match t.kind with
    | .pipe | .parenClose => d.ended (t :: rest)
    | .bracketOpen => do
      let p ← d.bracketed source t.start rest
      return ⟨(set p.1.1, p.1.2), Nat.lt_succ_of_lt p.2⟩
    | .classEscape _ => do
      let s ← d.shorthand source t
      return ⟨(set s, rest), length_lt_cons t rest⟩
    | .parenOpen | .dot | .caret | .dollar | .star | .plus | .question =>
      Regex.atom sourceEnd nested (t :: rest)
    | _ => do
      let cp ← d.literal source t
      let s ← ClassItem.liftRange (CharSet.single cp)
      return ⟨(set s, rest), length_lt_cons t rest⟩

def nestedWithin (sourceEnd : Nat) : (depth : Nat) → TokenReader Regex
  | 0 => alternation sourceEnd
      (itemWith (d.atom source sourceEnd fun opened _ ↦
        .error (.malformed opened .nestedTooDeeply)))
  | depth + 1 => alternation sourceEnd
      (itemWith (d.atom source sourceEnd fun _ ts ↦ nestedWithin sourceEnd depth ts))

/-- The tree of a pattern, read with detours. -/
def parseWithin (depth : Nat) (source : String) : Except CompileError Regex := do
  let ⟨(r, rest), _⟩ ←
    d.nestedWithin source.toList (byteLength source.toList) depth (Token.scan source)
  match rest with
  | [] => return r
  | t :: _ =>
    if t.kind = .parenClose then throw (.malformed t.start .unbalancedParenthesis)
    else throw (.malformed t.start .trailingInput)

end Detour

end Regex

/-! ### Texts of tokens -/

theorem slice_append (front text back : List Char) :
    slice (byteLength front) (byteLength front + byteLength text) (front ++ (text ++ back)) =
      text := by
  induction front with
  | nil =>
    change slice 0 (0 + byteLength text) (text ++ back) = text
    rw [Nat.zero_add]
    induction text with
    | nil => cases back <;> rfl
    | cons c text ih =>
      have hstop : byteLength (c :: text) - c.utf8Size = byteLength text :=
        Nat.add_sub_cancel_left ..
      rw [List.cons_append, slice, if_pos rfl, if_neg (byteLength_cons_pos c text).ne', hstop, ih]
  | cons c front ih =>
    have hstart : byteLength (c :: front) - c.utf8Size = byteLength front :=
      Nat.add_sub_cancel_left ..
    have hstop : byteLength (c :: front) + byteLength text - c.utf8Size =
        byteLength front + byteLength text := by
      change c.utf8Size + byteLength front + _ - _ = _
      rw [Nat.add_assoc, Nat.add_sub_cancel_left]
    rw [List.cons_append, slice, if_neg (byteLength_cons_pos c front).ne', hstart, hstop, ih]

namespace Token

theorem Spells.eq_of_shorthand {kind : Kind} {text : List Char} {s : Shorthand}
    (h : Spells kind text) (hkind : kind = .classEscape s) : text = ['\\', s.letter] := by
  cases h with
  | plain hc => exact absurd hkind (plainKind_ne_of_isEscape rfl _)
  | shorthand s' => rw [Kind.classEscape.inj hkind]
  | hex | unicode | escape | short | lone => cases hkind

/-- The token has a text of its kind, and has it in the source. -/
structure Legible (source : List Char) (t : Token) : Prop where
  spells : Spells t.kind t.text
  textIn_eq : t.textIn source = t.text

/-- The text of a token is what stands between its places. -/
theorem textIn_of_mem_scan {source : String} {t : Token} (h : t ∈ scan source) :
    t.textIn source.toList = t.text := by
  obtain ⟨front, rest, hsource, hstart, _⟩ := exists_written_of_mem_scan h
  rw [textIn, stop, hstart, hsource, List.append_assoc, slice_append]

theorem legible_of_mem_scan {source : String} {t : Token} (h : t ∈ scan source) :
    t.Legible source.toList :=
  ⟨spells_of_mem_scanFrom h, textIn_of_mem_scan h⟩

end Token

/-! ### Readers -/

theorem mapM_congr_of_mem {ε α β : Type} {f g : α → Except ε β} {as : List α}
    (h : ∀ a ∈ as, f a = g a) : as.mapM f = as.mapM g := by
  induction as with
  | nil => rfl
  | cons a as ih =>
    rw [List.forall_mem_cons] at h
    rw [List.mapM_cons, List.mapM_cons, h.1, ih h.2]

namespace Regex.Detour

open Grammar

variable {source : List Char} {t : Token} {ts : List Token} {sourceEnd : Nat} (d : Detour)

theorem literal_eq (h : t.Legible source) : d.literal source t = t.literal := by
  unfold literal Token.literal
  rw [h.textIn_eq]
  rfl

theorem shorthand_eq {s : Shorthand} (h : t.Legible source) (hkind : t.kind = .classEscape s) :
    d.shorthand source t = .ok s.charset := by
  unfold shorthand
  rw [h.textIn_eq, h.spells.eq_of_shorthand hkind]
  cases s <;> rfl

theorem classItem_eq (h : t.Legible source) : d.classItem source t = ClassItem.ofToken t := by
  cases hkind : t.kind with
  | classEscape s =>
    simp only [classItem, ClassItem.ofToken, hkind, d.shorthand_eq h hkind]
    rfl
  | _ => simp only [classItem, ClassItem.ofToken, hkind, d.literal_eq h]

theorem classSet_eq (opened : Nat) (negated : Bool) (h : ∀ t ∈ ts, t.Legible source) :
    d.classSet source opened negated ts = SignalRegex.classSet opened negated ts := by
  have hitems : (classSpan ts).1.mapM (d.classItem source) =
      (classSpan ts).1.mapM ClassItem.ofToken :=
    mapM_congr_of_mem fun t ht ↦ d.classItem_eq (h t (mem_of_mem_classSpan ht))
  exact congrArg (· >>= _) hitems

theorem bracketed_eq (opened : Nat) (h : ∀ t ∈ ts, t.Legible source) :
    d.bracketed source opened ts = Regex.bracketed opened ts := by
  cases ts with
  | nil => exact d.classSet_eq opened false h
  | cons t ts =>
    unfold bracketed Regex.bracketed
    dsimp only
    rw [d.classSet_eq opened true (List.forall_mem_cons.mp h).2, d.classSet_eq opened false h]

/-- Where a sequence has not ended, an atom is read as without detours. -/
theorem atom_eq (nested : Nat → TokenReader Regex) (h : ∀ t ∈ ts, t.Legible source)
    (hends : ¬ sequenceEnds ts = true) :
    d.atom source sourceEnd nested ts = Regex.atom sourceEnd nested ts := by
  cases ts with
  | nil => exact absurd rfl hends
  | cons t ts =>
    obtain ⟨ht, hts⟩ := List.forall_mem_cons.mp h
    cases hkind : t.kind with
    | pipe =>
      exact absurd (sequenceEnds_iff.mpr (Or.inr (Or.inl (startsWith_cons.mpr hkind)))) hends
    | parenClose =>
      exact absurd (sequenceEnds_iff.mpr (Or.inr (Or.inr (startsWith_cons.mpr hkind)))) hends
    | bracketOpen => simp only [atom, Regex.atom, hkind, d.bracketed_eq t.start hts]
    | classEscape s =>
      simp only [atom, Regex.atom, hkind, d.shorthand_eq ht hkind]
      rfl
    | parenOpen | dot | caret | dollar | star | plus | question => simp only [atom, hkind]
    | _ => simp only [atom, Regex.atom, hkind, d.literal_eq ht]

theorem stepwise_eq : Stepwise fun _ x y ↦ x = y where
  refl _ := rfl
  bind := by
    rintro α β x _ f g rfl hnext
    cases x with
    | error e => rfl
    | ok a => exact hnext a rfl

/-- Detours that change nothing in parentheses change nothing around them. -/
theorem pattern_eq {depth : Nat} {nested nested' : Nat → TokenReader Regex}
    (hinside : ReadsInside nested depth)
    (hnested : ∀ opened ts, (∀ t ∈ ts, t.Legible source) → nested' opened ts = nested opened ts)
    (hts : ∀ t ∈ ts, t.Legible source) :
    alternation sourceEnd (itemWith (d.atom source sourceEnd nested')) ts =
      alternation sourceEnd (item sourceEnd nested) ts := by
  refine (stepwise_eq.pattern hinside (fun ts hts hends ↦ ?_) hts).symm
  rw [d.atom_eq nested' hts hends]
  exact stepwise_eq.atom (fun opened ts h ↦ (hnested opened ts h).symm) hts

theorem nestedWithin_eq (depth : Nat) (hts : ∀ t ∈ ts, t.Legible source) :
    d.nestedWithin source sourceEnd depth ts = Regex.nestedWithin sourceEnd depth ts := by
  induction depth generalizing ts with
  | zero => exact d.pattern_eq readsInside_tooDeep (fun _ _ _ ↦ rfl) hts
  | succ depth ih =>
    have hinside := readsInside_of_readsPhrases (readsPhrases_nestedWithin sourceEnd depth)
    exact d.pattern_eq hinside (fun _ _ h ↦ ih h) hts

/-- A pattern is read as without detours. -/
theorem parseWithin_eq (depth : Nat) (source : String) :
    d.parseWithin depth source = Regex.parseWithin depth source := by
  have hread : d.nestedWithin source.toList (byteLength source.toList) depth (Token.scan source) =
      Regex.nestedWithin (byteLength source.toList) depth (Token.scan source) :=
    d.nestedWithin_eq depth fun t ht ↦ Token.legible_of_mem_scan ht
  exact congrArg (· >>= _) hread

end Regex.Detour

end SignalRegex
