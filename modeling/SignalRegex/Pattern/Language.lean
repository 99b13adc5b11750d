import SignalRegex.Pattern.Regex

/-!
The language of a pattern: the texts, as lists of code points, that it matches from end to end.
-/

set_option autoImplicit false

namespace SignalRegex.Regex

/-- A pattern matches a whole text. -/
inductive Matches : Regex → List Nat → Prop where
  | set {s : CharSet} {cp : Nat} : cp ∈ s → Matches (.set s) [cp]
  | starNil {r : Regex} : Matches (.star r) []
  | starCons {r : Regex} {u v : List Nat} :
      Matches r u → Matches (.star r) v → Matches (.star r) (u ++ v)
  | plus {r : Regex} {u v : List Nat} :
      Matches r u → Matches (.star r) v → Matches (.plus r) (u ++ v)
  | maybeNil {r : Regex} : Matches (.maybe r) []
  | maybe {r : Regex} {w : List Nat} : Matches r w → Matches (.maybe r) w
  | concatNil : Matches (.concat []) []
  | concatCons {r : Regex} {rs : List Regex} {u v : List Nat} :
      Matches r u → Matches (.concat rs) v → Matches (.concat (r :: rs)) (u ++ v)
  | alternate {r : Regex} {rs : List Regex} {w : List Nat} :
      r ∈ rs → Matches r w → Matches (.alternate rs) w

@[simp] theorem matches_set {s : CharSet} {w : List Nat} :
    Matches (.set s) w ↔ ∃ cp ∈ s, w = [cp] := by
  constructor
  · intro h
    cases h with
    | set hcp => exact ⟨_, hcp, rfl⟩
  · rintro ⟨cp, hcp, rfl⟩
    exact .set hcp

@[simp] theorem matches_maybe {r : Regex} {w : List Nat} :
    Matches (.maybe r) w ↔ w = [] ∨ Matches r w := by
  constructor
  · intro h
    cases h with
    | maybeNil => exact .inl rfl
    | maybe h => exact .inr h
  · rintro (rfl | h)
    · exact .maybeNil
    · exact .maybe h

theorem matches_plus {r : Regex} {w : List Nat} :
    Matches (.plus r) w ↔ ∃ u v, Matches r u ∧ Matches (.star r) v ∧ w = u ++ v := by
  constructor
  · intro h
    cases h with
    | plus hu hv => exact ⟨_, _, hu, hv, rfl⟩
  · rintro ⟨u, v, hu, hv, rfl⟩
    exact .plus hu hv

@[simp] theorem matches_concat_nil {w : List Nat} : Matches (.concat []) w ↔ w = [] := by
  constructor
  · intro h
    cases h
    rfl
  · rintro rfl
    exact .concatNil

theorem matches_concat_cons {r : Regex} {rs : List Regex} {w : List Nat} :
    Matches (.concat (r :: rs)) w ↔
      ∃ u v, Matches r u ∧ Matches (.concat rs) v ∧ w = u ++ v := by
  constructor
  · intro h
    cases h with
    | concatCons hu hv => exact ⟨_, _, hu, hv, rfl⟩
  · rintro ⟨u, v, hu, hv, rfl⟩
    exact .concatCons hu hv

theorem matches_alternate {rs : List Regex} {w : List Nat} :
    Matches (.alternate rs) w ↔ ∃ r ∈ rs, Matches r w := by
  constructor
  · intro h
    cases h with
    | alternate hr hw => exact ⟨_, hr, hw⟩
  · rintro ⟨r, hr, hw⟩
    exact .alternate hr hw

end SignalRegex.Regex
