import SignalRegex.Proofs.CountedNesting
import SignalRegex.Proofs.PositionedErrors

/-!
What the limit on nesting changes.

Two readers with different limits answer alike up to the place where the one with the lower limit
meets it (`upToDepth_nestedWithin`), and it is met at a parenthesis with as many parentheses open in
front of it as the limit allows (`Stuck.tooDeep_iff`).
-/

set_option autoImplicit false

namespace SignalRegex

namespace Grammar

open Regex

variable {sourceEnd limit limit' position : Nat} {groups ts : List Token}
  {nested nested' : Nat → TokenReader Regex}

/-- The answers are equal, unless the first one is that parentheses are nested too deeply. -/
def UpToDepth (α : Type) (x y : Except CompileError α) : Prop :=
  (∃ position, x = .error (.malformed position .nestedTooDeeply)) ∨ x = y

theorem stepwise_upToDepth : Stepwise UpToDepth where
  refl _ := Or.inr rfl
  bind := by
    rintro α β x y f g (⟨position, rfl⟩ | rfl) hnext
    · exact Or.inl ⟨position, rfl⟩
    · cases x with
      | error e => exact Or.inr rfl
      | ok a => exact hnext a rfl

theorem upToDepth_pattern {depth : Nat} (hinside : ReadsInside nested depth)
    (hnested : ∀ opened ts, UpToDepth _ (nested opened ts) (nested' opened ts)) :
    UpToDepth _ (alternation sourceEnd (item sourceEnd nested) ts)
      (alternation sourceEnd (item sourceEnd nested') ts) :=
  stepwise_upToDepth.pattern (P := fun _ ↦ True) hinside
    (fun _ hts _ ↦ stepwise_upToDepth.atom (fun opened ts _ ↦ hnested opened ts) hts)
    fun _ _ ↦ trivial

/-- A reader with a higher limit answers alike, up to the place where the lower one is met. -/
theorem upToDepth_nestedWithin (h : limit ≤ limit') :
    UpToDepth _ (nestedWithin sourceEnd limit ts) (nestedWithin sourceEnd limit' ts) := by
  induction limit generalizing limit' ts with
  | zero =>
    cases limit' with
    | zero => exact Or.inr rfl
    | succ limit' =>
      -- only the higher limit goes into the parentheses, and the lower one is met at each of them
      exact upToDepth_pattern readsInside_tooDeep fun opened _ ↦ Or.inl ⟨opened, rfl⟩
  | succ limit ih =>
    cases limit' with
    | zero => exact absurd h (Nat.not_succ_le_zero limit)
    | succ limit' =>
      have hinside := readsInside_of_readsPhrases (readsPhrases_nestedWithin sourceEnd limit)
      exact upToDepth_pattern hinside fun _ _ ↦ ih (Nat.le_of_succ_le_succ h)

theorem upToDepth_parseWithin (h : limit ≤ limit') (source : String) :
    UpToDepth _ (parseWithin limit source) (parseWithin limit' source) :=
  stepwise_upToDepth.bind (upToDepth_nestedWithin h) fun _ _ ↦ stepwise_upToDepth.refl _

/-- The limit is met at a parenthesis with as many parentheses open as it allows. -/
theorem Stuck.tooDeep_iff (hspells : ∀ t ∈ ts, Token.Spells t.kind t.text) :
    Stuck sourceEnd limit groups ts (.malformed position .nestedTooDeeply) ↔
      ∃ t rest, ts = t :: rest ∧ t.start = position ∧ t.kind = .parenOpen ∧
        groups.length = limit := by
  constructor
  · intro h
    cases h with
    | tooDeep hkind hlimit => exact ⟨_, _, rfl, rfl, hkind, hlimit⟩
    -- classes and literals have faults of their own, and none of them is about nesting
    | badClass hkind hclass =>
      obtain ⟨fault, hfault, he⟩ := bracketed_error (List.forall_mem_cons.mp hspells).2 hclass
      rcases he with he | ⟨t, _, he⟩
      · obtain ⟨_, rfl⟩ := CompileError.malformed.inj he
        exact absurd hfault (by decide)
      · obtain ⟨_, rfl⟩ := CompileError.malformed.inj he
        exact absurd hfault (by decide)
    | badLiteral hliteral =>
      have hfault := Token.literal_error (List.forall_mem_cons.mp hspells).1 hliteral
      rcases hfault with he | he <;> cases he
    | badCodePoint hliteral hrange =>
      obtain ⟨s, hs⟩ := Token.exists_single_of_literal hliteral
      cases hs.symm.trans hrange
  · rintro ⟨t, rest, rfl, rfl, hkind, hlimit⟩
    exact .tooDeep hkind hlimit

end Grammar

namespace Regex

open Grammar

/-- The answer is that parentheses are nested too deeply at the given place. -/
def TooDeep (position : Nat) : Except CompileError Regex → Prop
  | .error (.malformed place fault) =>
    place = position ∧ fault.message = "pattern nested too deeply"
  | _ => False

instance (position : Nat) : DecidablePred (TooDeep position)
  | .error (.malformed place fault) =>
    inferInstanceAs (Decidable (place = position ∧ fault.message = "pattern nested too deeply"))
  | .error (.unsupported ..) | .error (.invalidRange _) | .error (.stateLimit ..)
  | .error (.inPattern ..) | .ok _ => inferInstanceAs (Decidable False)

theorem tooDeep_iff {position : Nat} {answer : Except CompileError Regex} :
    TooDeep position answer ↔ answer = .error (.malformed position .nestedTooDeeply) := by
  constructor
  · intro h
    cases answer with
    | ok r => exact h.elim
    | error e =>
      cases e with
      | malformed place fault =>
        obtain ⟨rfl, hmessage⟩ := h
        obtain rfl : fault = .nestedTooDeeply := Fault.message_injective hmessage
        rfl
      | unsupported | invalidRange | stateLimit | inPattern => exact h.elim
  · rintro rfl
    exact ⟨rfl, rfl⟩

/-- The limit on nesting cuts off deep patterns and does nothing else, whether the depth left below
it is handed down or open parentheses are counted up to it. A pattern that does not meet it has the
same tree or the same error under every higher limit. Where it is met, a parenthesis stands outside
all classes, with exactly as many parentheses open in front of it as the limit is. -/
theorem limit_cuts_only_deep_nesting (limit : Nat) (source : String) :
    Counting.parseWithin limit source = parseWithin limit source ∧
    (∀ limit', limit ≤ limit' → (∀ position, ¬ TooDeep position (parseWithin limit source)) →
      parseWithin limit' source = parseWithin limit source) ∧
    ∀ position, TooDeep position (parseWithin limit source) →
      ∃ front t rest groups, Token.scan source = front ++ t :: rest ∧ t.start = position ∧
        t.kind = .parenOpen ∧ (Place.outside []).behind front = .outside groups ∧
        groups.length = limit := by
  refine ⟨Counting.parseWithin_eq limit source, fun limit' hle hmet ↦ ?_, fun position h ↦ ?_⟩
  · rcases upToDepth_parseWithin hle source with ⟨position, h⟩ | h
    · exact absurd (tooDeep_iff.mpr h) (hmet position)
    · exact h.symm
  · obtain ⟨front, rest, groups, hscan, hplace, hspells, hstuck⟩ :=
      exists_stuck_of_parseWithin (tooDeep_iff.mp h)
    obtain ⟨t, rest, rfl, hstart, hkind, hlimit⟩ := (Stuck.tooDeep_iff hspells).mp hstuck
    exact ⟨front, t, rest, groups, hscan, hstart, hkind, hplace, hlimit⟩

/-- Neither a group that is closed nor a parenthesis in a class counts. -/
theorem limit_cuts_only_deep_nesting_siblings :
    TooDeep 7 (parseWithin 1 "(a)[(]((b))") ∧
    (∃ front t rest groups, Token.scan "(a)[(]((b))" = front ++ t :: rest ∧ t.start = 7 ∧
      t.kind = .parenOpen ∧ (Place.outside []).behind front = .outside groups ∧
      groups.length = 1) ∧
    parseWithin 9 "(a)[(]((b))" = parseWithin 2 "(a)[(]((b))" := by
  have hcut : TooDeep 7 (parseWithin 1 "(a)[(]((b))") := by decide +kernel
  have hread : (parseWithin 2 "(a)[(]((b))").toBool = true := by decide +kernel
  refine ⟨hcut, (limit_cuts_only_deep_nesting 1 _).2.2 7 hcut,
    (limit_cuts_only_deep_nesting 2 _).2.1 9 (by decide) fun position h ↦ ?_⟩
  rw [tooDeep_iff.mp h] at hread
  cases hread

end Regex

end SignalRegex
