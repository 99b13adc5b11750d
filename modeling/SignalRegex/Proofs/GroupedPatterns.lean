import SignalRegex.Proofs.GrammarReading

/-!
Patterns in parentheses are read as they are read alone.

A derivation can be moved to another place (`WellFormed.shift`), and a closing parenthesis behind it
changes nothing (`admits_nil_close`), since the text of a bound on repetition never goes beyond the
parenthesis (`isRepetition_of_append`).
-/

set_option autoImplicit false

namespace SignalRegex

/-! ### Another place -/

section Shift

variable {t : Token} (distance : Nat)

theorem Token.literal_shift {cp : Nat} (h : t.literal = .ok cp) :
    (t.shift distance).literal = .ok cp := by
  have hnumber (hkind : t.kind = .hexEscape ∨ t.kind = .unicodeEscape) :
      (t.shift distance).literal = .ok cp :=
    (Regex.literal_number (t := t.shift distance) hkind).mpr ((Regex.literal_number hkind).mp h)
  cases hkind : t.kind with
  | hexEscape => exact hnumber (Or.inl hkind)
  | unicodeEscape => exact hnumber (Or.inr hkind)
  | escape =>
    cases hmore : t.more with
    | nil => simp [literal, hkind, hmore] at h
    | cons c more => simpa [literal, shift, hkind, hmore] using h
  | incomplete => simp [literal, hkind] at h
  | _ => simpa [literal, shift, hkind] using h

namespace ClassItem

/-- The item at a place that lies `distance` bytes further on. -/
def shift : ClassItem → ClassItem
  | char cp position => char cp (position + distance)
  | dash position => dash (position + distance)
  | set s position => set s (position + distance)

theorem ofToken_shift {i : ClassItem} (h : ofToken t = .ok i) :
    ofToken (t.shift distance) = .ok (i.shift distance) := by
  by_cases hdash : t.kind = .dash
  · simp only [ofToken, hdash, Except.ok.injEq] at h
    simp [ofToken, Token.shift, hdash, ← h, shift]
  · by_cases hclass : ∃ c, t.kind = .classEscape c
    · obtain ⟨c, hclass⟩ := hclass
      simp only [ofToken, hclass, Except.ok.injEq] at h
      simp [ofToken, Token.shift, hclass, ← h, shift]
    · have hnone := not_exists.mp hclass
      rw [ofToken_of_literal hdash hnone] at h
      cases hliteral : t.literal with
      | error e => rw [hliteral] at h; cases h
      | ok cp =>
        rw [hliteral] at h
        obtain rfl := Except.ok.inj h
        rw [ofToken_of_literal (t := t.shift distance) hdash hnone,
          Token.literal_shift distance hliteral]
        rfl

theorem ranges_shift (i : ClassItem) : (i.shift distance).ranges = i.ranges := by
  cases i <;> rfl

theorem endpoint_shift {i : ClassItem} {cp position : Nat} (h : i.endpoint = .ok (cp, position)) :
    (i.shift distance).endpoint = .ok (cp, position + distance) := by
  cases i with
  | set s position' => cases h
  | _ =>
    obtain ⟨rfl, rfl⟩ := Prod.mk.inj (Except.ok.inj h)
    rfl

theorem rangeBetween_shift {first last : ClassItem} {r : CodeRange}
    (h : rangeBetween first last = .ok r) :
    rangeBetween (first.shift distance) (last.shift distance) = .ok r := by
  obtain ⟨⟨low, position⟩, hlow, h⟩ := exists_of_bind_eq_ok h
  obtain ⟨⟨high, position'⟩, hhigh, h⟩ := exists_of_bind_eq_ok h
  dsimp only at h
  rw [rangeBetween, endpoint_shift distance hlow, endpoint_shift distance hhigh]
  change (if high < low then _ else _) = _
  split_ifs at h ⊢ with hlt
  · cases h
  · exact h

theorem rangesAll_shift {items : List ClassItem} {ranges : List CodeRange}
    (h : rangesAll items = .ok ranges) :
    rangesAll (items.map (shift distance)) = .ok ranges := by
  fun_induction rangesAll items generalizing ranges with
  | case1 first position last items ih =>
    obtain ⟨r, hr, h⟩ := exists_of_bind_eq_ok h
    obtain ⟨rest, hrest, h⟩ := exists_of_bind_eq_ok h
    change rangesAll (first.shift distance :: dash (position + distance) :: last.shift distance ::
      items.map (shift distance)) = _
    rw [rangesAll, rangeBetween_shift distance hr]
    change (rangesAll (items.map _) >>= fun rest ↦ _) = _
    rw [ih hrest]
    exact h
  | case2 item items hrange ih =>
    obtain ⟨rs, hrs, h⟩ := exists_of_bind_eq_ok h
    obtain ⟨rest, hrest, h⟩ := exists_of_bind_eq_ok h
    rw [List.map_cons, rangesAll, ranges_shift, hrs]
    · change (rangesAll (items.map _) >>= fun rest ↦ _) = _
      rw [ih hrest]
      exact h
    · intro position last more hmap
      obtain ⟨i, items, rfl, hi, hmap⟩ := List.map_eq_cons_iff.mp hmap
      obtain ⟨j, items, rfl, -, -⟩ := List.map_eq_cons_iff.mp hmap
      cases i with
      | dash position' => exact hrange position' j items rfl
      | char cp position' => cases hi
      | set s position' => cases hi
  | case3 => exact h

end ClassItem

namespace Regex

variable {ts rest : List Token} {s : CharSet} {opened : Nat}

theorem startsWith_shift {kind : Token.Kind} :
    startsWith kind (ts.map (Token.shift distance)) = startsWith kind ts := by
  cases ts <;> rfl

theorem startsQuantifier_shift :
    StartsQuantifier (ts.map (Token.shift distance)) ↔ StartsQuantifier ts := by
  cases ts with
  | nil => rfl
  | cons t ts => rw [List.map_cons, startsQuantifier_cons, startsQuantifier_cons]; rfl

theorem startsBound_shift : StartsBound (ts.map (Token.shift distance)) ↔ StartsBound ts := by
  rw [StartsBound, StartsBound, startsWith_shift, Token.flatMap_text_shift]

theorem gives_classSet_shift {negated : Bool} (h : Gives (classSet opened negated ts) (s, rest)) :
    Gives (classSet (opened + distance) negated (ts.map (Token.shift distance)))
      (s, rest.map (Token.shift distance)) := by
  simp only [gives_classSet, classSpan_eq_iff] at h ⊢
  obtain ⟨u, _, items, ranges, ⟨first, body, rfl, rfl, hu, hbody⟩, hitems, hranges, rfl⟩ := h
  refine ⟨u.shift distance, (first :: body).map (Token.shift distance),
    items.map (ClassItem.shift distance), ranges,
    ⟨first.shift distance, body.map (Token.shift distance), rfl, by simp, hu, ?_⟩, ?_,
    ClassItem.rangesAll_shift distance hranges, rfl⟩
  · rw [List.forall_mem_map]
    exact hbody
  · rw [List.forall₂_map_left_iff, List.forall₂_map_right_iff]
    exact hitems.imp fun _ _ ↦ ClassItem.ofToken_shift distance

theorem gives_bracketed_shift (h : Gives (bracketed opened ts) (s, rest)) :
    Gives (bracketed (opened + distance) (ts.map (Token.shift distance)))
      (s, rest.map (Token.shift distance)) := by
  rw [gives_bracketed, startsWith_shift]
  rcases gives_bracketed.mp h with ⟨hcaret, hclass⟩ | ⟨t, ts, rfl, hcaret, hclass⟩
  · exact Or.inl ⟨hcaret, gives_classSet_shift distance hclass⟩
  · exact Or.inr ⟨t.shift distance, _, rfl, hcaret, gives_classSet_shift distance hclass⟩

end Regex

namespace Grammar

open Regex

namespace Derivation

variable {σ : Symbol} (d : Derivation σ)

/-- The derivation of the same text `distance` bytes further on. -/
def shift : {σ : Symbol} → Derivation σ → Derivation σ
  | _, leaf t s => leaf (t.shift distance) s
  | _, bracket opened inside s =>
    bracket (opened.shift distance) (inside.map (Token.shift distance)) s
  | _, group opened inner closed =>
    group (opened.shift distance) inner.shift (closed.shift distance)
  | _, plain a => plain a.shift
  | _, quantified a q t => quantified a.shift q (t.shift distance)
  | _, single i => single i.shift
  | _, next i rest => next i.shift rest.shift
  | _, only s => only s.shift
  | _, either s bar rest => either s.shift (bar.shift distance) rest.shift

theorem tokens_shift : (d.shift distance).tokens = d.tokens.map (Token.shift distance) := by
  induction d <;> simp_all [shift, tokens]

theorem depth_shift : (d.shift distance).depth = d.depth := by
  induction d <;> simp_all [shift, depth]

theorem tree_shift :
    (d.shift distance).tree = d.tree ∧ (d.shift distance).trees = d.trees := by
  induction d <;> simp_all [shift, tree, trees]

variable {d} {after : List Token}

theorem WellFormed.shift (h : d.WellFormed after) :
    (d.shift distance).WellFormed (after.map (Token.shift distance)) := by
  induction d generalizing after with
  | leaf t s => exact h
  | bracket opened inside s => exact ⟨h.1, gives_bracketed_shift distance h.2⟩
  | group opened inner closed ih => exact ⟨h.1, ih h.2.1, h.2.2⟩
  | plain a ih => exact ih h
  | quantified a q t ih => exact ⟨ih h.1, h.2.1, mt (startsQuantifier_shift distance).mp h.2.2⟩
  | single i ih => exact ih h
  | next i rest ih ihrest =>
    obtain ⟨hitem, hbound, hrest⟩ := h
    refine ⟨?_, ?_, ihrest hrest⟩
    · rw [tokens_shift, ← List.map_append]
      exact ih hitem
    · rw [tokens_shift, ← List.map_append]
      exact mt (startsBound_shift distance).mp hbound
  | only s ih => exact ih h
  | either s bar rest ih ihrest =>
    obtain ⟨hsequence, hbar, hrest⟩ := h
    refine ⟨?_, hbar, ihrest hrest⟩
    rw [tokens_shift, ← List.map_append]
    exact ih hsequence

end Derivation

end Grammar

end Shift

/-! ### In front of a closing parenthesis -/

namespace Regex

theorem mem_low_or_mem_high {body : List Char} {c : Char} (hmem : c ∈ body) (hcomma : c ≠ ',') :
    c ∈ body.takeWhile (· ≠ ',') ∨ c ∈ (body.dropWhile (· ≠ ',')).drop 1 := by
  rw [← List.takeWhile_append_dropWhile (p := (· ≠ ',')) (l := body), List.mem_append] at hmem
  refine hmem.imp_right fun hmem ↦ ?_
  have hhead := List.head?_dropWhile_not (fun c : Char ↦ decide (c ≠ ',')) body
  cases hdrop : body.dropWhile (· ≠ ',') with
  | nil => rw [hdrop] at hmem; cases hmem
  | cons c' rest =>
    rw [hdrop] at hmem hhead
    have hc' : c' = ',' := by simpa using hhead
    exact (List.mem_cons.mp hmem).resolve_left fun heq ↦ hcomma (heq.trans hc')

/-- A bound on repetition does not reach beyond a character that stands in no bound. -/
theorem isRepetition_of_append {front back : List Char} {c : Char} (hfront : front ≠ [])
    (hdigit : c.isDigit = false) (hcomma : c ≠ ',') (hbrace : c ≠ '\x7d')
    (h : isRepetition (front ++ c :: back) = true) : isRepetition front = true := by
  obtain ⟨first, rest, rfl⟩ := List.exists_cons_of_ne_nil hfront
  rw [List.cons_append] at h
  unfold isRepetition at h ⊢
  split at h
  · rename_i _ text heq
    obtain ⟨rfl, rfl⟩ := List.cons.inj heq
    dsimp only at h ⊢
    by_cases hclosed : '\x7d' ∈ rest
    · -- the bound is closed in front of the character
      obtain ⟨body, more, rfl, hbody⟩ := List.eq_append_cons_of_mem hclosed
      have hpos : ∀ c ∈ body, decide (c ≠ '\x7d') = true := by
        intro c hc
        exact decide_eq_true fun heq ↦ hbody (heq ▸ hc)
      simp only [List.append_assoc, List.takeWhile_append_of_pos hpos] at h ⊢
      simpa using h
    · -- otherwise the character is part of one of the numbers
      have hpos : ∀ c ∈ rest, decide (c ≠ '\x7d') = true := by
        intro c hc
        exact decide_eq_true fun heq ↦ hclosed (heq ▸ hc)
      have hmem : c ∈ (rest ++ c :: back).takeWhile (· ≠ '\x7d') := by
        rw [List.takeWhile_append_of_pos hpos, List.takeWhile_cons_of_pos (by simpa using hbrace)]
        simp
      simp only [Bool.and_eq_true, List.all_eq_true] at h
      obtain ⟨⟨_, hlow⟩, hhigh⟩ := h
      have hall := (mem_low_or_mem_high hmem hcomma).elim (hlow c) (hhigh c)
      rw [hdigit] at hall
      cases hall
  · cases h

end Regex

namespace Grammar

open Regex

/-- Whatever the second list of tokens lets start behind some tokens, the first one does too. -/
def Admits (after after' : List Token) : Prop :=
  ∀ ts, (StartsQuantifier (ts ++ after') → StartsQuantifier (ts ++ after)) ∧
    (StartsBound (ts ++ after') → StartsBound (ts ++ after))

theorem Admits.append {after after' : List Token} (h : Admits after after') (us : List Token) :
    Admits (us ++ after) (us ++ after') := by
  intro ts
  rw [← List.append_assoc, ← List.append_assoc]
  exact h (ts ++ us)

theorem admits_nil_close {closed : Token} {more : List Token} (hkind : closed.kind = .parenClose)
    (htext : closed.first = ')') : Admits [] (closed :: more) := by
  intro ts
  rw [List.append_nil]
  cases ts with
  | nil =>
    have hclose : startsWith .parenClose (closed :: more) = true := startsWith_cons.mpr hkind
    refine ⟨fun h ↦ ?_, fun h ↦ ?_⟩
    · exact absurd h (not_startsQuantifier_of_kind hclose fun q ↦ by cases q <;> decide)
    · exact absurd h (not_startsBound_of_kind hclose (by decide))
  | cons t ts =>
    refine ⟨fun h ↦ ?_, fun h ↦ ⟨?_, ?_⟩⟩
    · exact startsQuantifier_cons.mpr (startsQuantifier_cons.mp h)
    · exact startsWith_cons.mpr (startsWith_cons.mp h.1)
    · have hbound := h.2
      rw [List.flatMap_append, List.flatMap_cons (x := closed), Token.text, htext] at hbound
      exact isRepetition_of_append (List.cons_ne_nil _ _) (by decide) (by decide) (by decide) hbound

namespace Derivation

variable {σ : Symbol} {d : Derivation σ} {after after' : List Token}

theorem WellFormed.of_admits (hadmits : Admits after after') (h : d.WellFormed after) :
    d.WellFormed after' := by
  induction d generalizing after after' with
  | leaf t s => exact h
  | bracket opened inside s => exact h
  | group opened inner closed ih => exact ⟨h.1, ih (hadmits.append [closed]) h.2.1, h.2.2⟩
  | plain a ih => exact ih hadmits h
  | quantified a q t ih =>
    exact ⟨ih (hadmits.append [t]) h.1, h.2.1, mt (hadmits []).1 h.2.2⟩
  | single i ih => exact ih hadmits h
  | next i rest ih ihrest =>
    exact ⟨ih (hadmits.append rest.tokens) h.1, mt (hadmits rest.tokens).2 h.2.1,
      ihrest hadmits h.2.2⟩
  | only s ih => exact ih hadmits h
  | either s bar rest ih ihrest =>
    exact ⟨ih (hadmits.append (bar :: rest.tokens)) h.1, h.2.1, ihrest hadmits h.2.2⟩

end Derivation

end Grammar

/-! ### Groups -/

theorem ClassItem.kind_ne_incomplete {t : Token} {i : ClassItem} (h : ofToken t = .ok i) :
    t.kind ≠ .incomplete := by
  intro hkind
  simp [ofToken, Token.literal, hkind, Except.map] at h

namespace Regex

variable {ts : List Token} {s : CharSet} {opened : Nat}

theorem kind_ne_incomplete_of_gives_classSet {negated : Bool}
    (h : Gives (classSet opened negated ts) (s, [])) : ∀ t ∈ ts, t.kind ≠ .incomplete := by
  simp only [gives_classSet, classSpan_eq_iff] at h
  obtain ⟨u, span, items, ranges, ⟨first, body, _, rfl, hu, _⟩, hitems, _⟩ := h
  have hspan := (List.forall₂_and_left ..).mp
    (hitems.imp fun _ _ hi ↦ ⟨ClassItem.kind_ne_incomplete hi, hi⟩)
  refine List.forall_mem_append.mpr ⟨hspan.1, List.forall_mem_singleton.mpr ?_⟩
  rw [hu]
  decide

theorem kind_ne_incomplete_of_gives_bracketed (h : Gives (bracketed opened ts) (s, [])) :
    ∀ t ∈ ts, t.kind ≠ .incomplete := by
  rcases gives_bracketed.mp h with ⟨_, hclass⟩ | ⟨t, rest, rfl, hkind, hclass⟩
  · exact kind_ne_incomplete_of_gives_classSet hclass
  · refine List.forall_mem_cons.mpr ⟨?_, kind_ne_incomplete_of_gives_classSet hclass⟩
    rw [hkind]
    decide

end Regex

namespace Grammar

open Regex

namespace Derivation

variable {σ : Symbol} {d : Derivation σ} {after : List Token}

/-- A phrase has no incomplete escape, so its text is scanned in the same way whatever follows. -/
theorem WellFormed.kind_ne_incomplete (h : d.WellFormed after) :
    ∀ t ∈ d.tokens, t.kind ≠ .incomplete := by
  induction d generalizing after with
  | leaf t s =>
    refine List.forall_mem_singleton.mpr fun hkind ↦ ?_
    simp [WellFormed, Token.Leaf, hkind] at h
  | bracket opened inside s =>
    refine List.forall_mem_cons.mpr ⟨?_, kind_ne_incomplete_of_gives_bracketed h.2⟩
    rw [h.1]
    decide
  | group opened inner closed ih =>
    obtain ⟨hopened, hinner, hclosed⟩ := h
    refine List.forall_mem_cons.mpr ⟨?_, List.forall_mem_append.mpr
      ⟨ih hinner, List.forall_mem_singleton.mpr ?_⟩⟩
    · rw [hopened]
      decide
    · rw [hclosed]
      decide
  | plain a ih => exact ih h
  | quantified a q t ih =>
    obtain ⟨ha, hkind, _⟩ := h
    refine List.forall_mem_append.mpr ⟨ih ha, List.forall_mem_singleton.mpr ?_⟩
    rw [hkind]
    cases q <;> decide
  | single i ih => exact ih h
  | next i rest ih ihrest => exact List.forall_mem_append.mpr ⟨ih h.1, ihrest h.2.2⟩
  | only s ih => exact ih h
  | either s bar rest ih ihrest =>
    obtain ⟨hs, hbar, hrest⟩ := h
    refine List.forall_mem_append.mpr ⟨ih hs, List.forall_mem_cons.mpr ⟨?_, ihrest hrest⟩⟩
    rw [hbar]
    decide

end Derivation

namespace Derivation

/-- The pattern of a derivation in parentheses, the first of which stands at `start`. -/
def enclosed (start width : Nat) (d : Derivation .alternation) : Derivation .atom :=
  group ⟨.parenOpen, start, '(', []⟩ (d.shift (start + 1)) ⟨.parenClose, start + 1 + width, ')', []⟩

variable {d : Derivation .alternation} {start width : Nat}

theorem tree_enclosed : (d.enclosed start width).tree = d.tree :=
  (tree_shift _ d).1

theorem depth_enclosed_le {limit : Nat} (h : d.depth ≤ limit) :
    (d.enclosed start width).depth ≤ limit + 1 := by
  change (d.shift (start + 1)).depth + 1 ≤ limit + 1
  rw [depth_shift]
  exact Nat.succ_le_succ h

theorem startsWith_enclosed (after : List Token) :
    startsWith .parenOpen ((d.enclosed start width).tokens ++ after) = true :=
  startsWith_cons.mpr rfl

theorem wellFormed_enclosed (h : d.WellFormed []) (after : List Token) :
    (d.enclosed start width).WellFormed after :=
  ⟨rfl, (h.shift _).of_admits (admits_nil_close rfl rfl), rfl⟩

/-- A pattern in parentheses is scanned in the same way wherever it stands. -/
theorem scanFrom_enclosed {text : List Char} (htokens : d.tokens = Token.scanFrom 0 text)
    (h : d.WellFormed []) (start : Nat) (more : List Char) :
    Token.scanFrom start ('(' :: (text ++ ')' :: more)) =
      (d.enclosed start (byteLength text)).tokens ++
        Token.scanFrom (start + 1 + byteLength text + 1) more := by
  have hmoved : Token.scanFrom (start + 1) text = (d.shift (start + 1)).tokens := by
    rw [tokens_shift, htokens, ← Token.scanFrom_add, Nat.zero_add]
  have hcomplete : ∀ t ∈ Token.scanFrom (start + 1) text, t.kind ≠ .incomplete := by
    rw [hmoved]
    exact (h.shift _).kind_ne_incomplete
  calc Token.scanFrom start ('(' :: (text ++ ')' :: more))
    _ = ⟨.parenOpen, start, '(', []⟩ :: Token.scanFrom (start + 1) (text ++ ')' :: more) :=
      Token.scanFrom_cons (by decide) start _
    _ = ⟨.parenOpen, start, '(', []⟩ :: ((d.shift (start + 1)).tokens ++
          Token.scanFrom (start + 1 + byteLength text) (')' :: more)) := by
      rw [Token.scanFrom_append _ hcomplete, hmoved]
    _ = _ := by
      rw [Token.scanFrom_cons (by decide), enclosed, tokens_group_append]
      rfl

theorem scan_enclosed {source p : String} {more : List Char} (htokens : d.tokens = Token.scan p)
    (h : d.WellFormed []) (hsource : source.toList = '(' :: (p.toList ++ ')' :: more)) :
    Token.scan source = (d.enclosed 0 (byteLength p.toList)).tokens ++
      Token.scanFrom (0 + 1 + byteLength p.toList + 1) more := by
  rw [Token.scan, hsource]
  exact scanFrom_enclosed htokens h 0 more

end Derivation

section Operands

variable {depth : Nat} {p q source : String} {a b : Regex}

theorem parseWithin_group (hp : parseWithin depth p = .ok a)
    (hsource : source.toList = '(' :: (p.toList ++ [')'])) :
    parseWithin (depth + 1) source = .ok a := by
  obtain ⟨d, htokens, hd, hdepth, rfl⟩ := parseWithin_eq_ok_iff.mp hp
  have hscan := d.scan_enclosed htokens hd hsource
  rw [Token.scanFrom, List.append_nil] at hscan
  have hread := parseWithin_of_atom hscan.symm (d.wellFormed_enclosed hd [])
    (d.depth_enclosed_le hdepth)
  rwa [d.tree_enclosed] at hread

theorem parseWithin_quantified_group (hp : parseWithin depth p = .ok a) (n : Quantifier) {c : Char}
    (hc : Token.plainKind c = n.kind) (hsource : source.toList = '(' :: (p.toList ++ [')', c])) :
    parseWithin (depth + 1) source = .ok (n.apply a) := by
  obtain ⟨d, htokens, hd, hdepth, rfl⟩ := parseWithin_eq_ok_iff.mp hp
  have hplain : c ≠ '\\' := by
    rintro rfl
    cases n <;> cases hc
  have hscan := d.scan_enclosed htokens hd hsource
  refine parseWithin_eq_ok_iff.mpr
    ⟨.only (.single (.quantified (d.enclosed 0 (byteLength p.toList)) n
      ⟨Token.plainKind c, 0 + 1 + byteLength p.toList + 1, c, []⟩)), ?_, ?_, ?_, ?_⟩
  · rw [hscan, Token.scanFrom_cons hplain, Token.scanFrom]
    rfl
  · exact ⟨d.wellFormed_enclosed hd _, hc, not_startsQuantifier_nil⟩
  · exact d.depth_enclosed_le hdepth
  · exact congrArg n.apply d.tree_enclosed

theorem parseWithin_group_group (hp : parseWithin depth p = .ok a)
    (hq : parseWithin depth q = .ok b)
    (hsource : source.toList = '(' :: (p.toList ++ ')' :: '(' :: (q.toList ++ [')']))) :
    parseWithin (depth + 1) source = .ok (.concat [a, b]) := by
  obtain ⟨d, hdtokens, hd, hddepth, rfl⟩ := parseWithin_eq_ok_iff.mp hp
  obtain ⟨e, hetokens, he, hedepth, rfl⟩ := parseWithin_eq_ok_iff.mp hq
  have hscan := d.scan_enclosed hdtokens hd hsource
  rw [e.scanFrom_enclosed hetokens he, Token.scanFrom, List.append_nil] at hscan
  refine parseWithin_eq_ok_iff.mpr
    ⟨.only (.next (.plain (d.enclosed 0 (byteLength p.toList)))
      (.single (.plain (e.enclosed (0 + 1 + byteLength p.toList + 1) (byteLength q.toList))))),
      ?_, ?_, ?_, ?_⟩
  · rw [hscan]
    rfl
  · exact ⟨d.wellFormed_enclosed hd _,
      not_startsBound_of_kind (e.startsWith_enclosed []) (by decide), e.wellFormed_enclosed he []⟩
  · exact max_le (d.depth_enclosed_le hddepth) (e.depth_enclosed_le hedepth)
  · simp only [Derivation.tree, Derivation.trees, Derivation.tree_enclosed]

theorem parseWithin_group_or_group (hp : parseWithin depth p = .ok a)
    (hq : parseWithin depth q = .ok b)
    (hsource : source.toList = '(' :: (p.toList ++ ')' :: '|' :: '(' :: (q.toList ++ [')']))) :
    parseWithin (depth + 1) source = .ok (.alternate [a, b]) := by
  obtain ⟨d, hdtokens, hd, hddepth, rfl⟩ := parseWithin_eq_ok_iff.mp hp
  obtain ⟨e, hetokens, he, hedepth, rfl⟩ := parseWithin_eq_ok_iff.mp hq
  have hscan := d.scan_enclosed hdtokens hd hsource
  rw [Token.scanFrom_cons (by decide), e.scanFrom_enclosed hetokens he, Token.scanFrom,
    List.append_nil] at hscan
  refine parseWithin_eq_ok_iff.mpr
    ⟨.either (.single (.plain (d.enclosed 0 (byteLength p.toList))))
      ⟨.pipe, 0 + 1 + byteLength p.toList + 1, '|', []⟩ (.only (.single (.plain
        (e.enclosed (0 + 1 + byteLength p.toList + 1 + 1) (byteLength q.toList))))),
      ?_, ?_, ?_, ?_⟩
  · rw [hscan]
    rfl
  · exact ⟨d.wellFormed_enclosed hd _, rfl, e.wellFormed_enclosed he []⟩
  · exact max_le (d.depth_enclosed_le hddepth) (e.depth_enclosed_le hedepth)
  · simp only [Derivation.tree, Derivation.trees, Derivation.tree_enclosed]

/-- Parentheses around a pattern keep its tree, and make it one operand of what stands around. -/
theorem parseWithin_compositional (hp : parseWithin depth p = .ok a)
    (hq : parseWithin depth q = .ok b) :
    parseWithin (depth + 1) ("(" ++ p ++ ")") = .ok a ∧
      parseWithin (depth + 1) ("(" ++ p ++ ")*") = .ok (.star a) ∧
      parseWithin (depth + 1) ("(" ++ p ++ ")+") = .ok (.plus a) ∧
      parseWithin (depth + 1) ("(" ++ p ++ ")?") = .ok (.maybe a) ∧
      parseWithin (depth + 1) ("(" ++ p ++ ")(" ++ q ++ ")") = .ok (.concat [a, b]) ∧
      parseWithin (depth + 1) ("(" ++ p ++ ")|(" ++ q ++ ")") = .ok (.alternate [a, b]) := by
  refine ⟨?_, ?_, ?_, ?_, ?_, ?_⟩
  · exact parseWithin_group hp (by simp)
  · exact parseWithin_quantified_group hp .star (c := '*') rfl (by simp)
  · exact parseWithin_quantified_group hp .plus (c := '+') rfl (by simp)
  · exact parseWithin_quantified_group hp .question (c := '?') rfl (by simp)
  · exact parseWithin_group_group hp hq (by simp)
  · exact parseWithin_group_or_group hp hq (by simp)

end Operands

/-- A text that would hold a bound on repetition if the parentheses did not end it. -/
theorem parseWithin_compositional_braces :
    parseWithin 1 ("(" ++ "a\x7b1" ++ ")(" ++ "2\x7d|\\)" ++ ")") = .ok (.concat
      [.concat [.set ⟨[⟨0x61, 0x62, by decide, by decide⟩], by decide⟩,
        .set ⟨[⟨0x7B, 0x7C, by decide, by decide⟩], by decide⟩,
        .set ⟨[⟨0x31, 0x32, by decide, by decide⟩], by decide⟩],
      .alternate [.concat [.set ⟨[⟨0x32, 0x33, by decide, by decide⟩], by decide⟩,
          .set ⟨[⟨0x7D, 0x7E, by decide, by decide⟩], by decide⟩],
        .set ⟨[⟨0x29, 0x2A, by decide, by decide⟩], by decide⟩]]) :=
  (parseWithin_compositional (by with_unfolding_all rfl) (by with_unfolding_all rfl)).2.2.2.2.1

end Grammar

end SignalRegex
