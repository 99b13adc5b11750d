import SignalRegex.Proofs.GrammarReading

/-!
Readers that answer alike.

A relation between answers that every step keeps (`Stepwise`) is passed on from the readers of atoms
and of what stands in parentheses to the readers built from them. Readers are compared only where
they are asked: a sequence asks for an item nowhere but where it has not ended, and the tokens that
a reader leaves are among those it was given.
-/

set_option autoImplicit false

namespace SignalRegex

/-- An atom with its quantifier, given a reader of atoms. -/
def Regex.itemWith (atom : TokenReader Regex) : TokenReader Regex := fun ts ↦ do
  let p ← atom ts
  let q ← quantify p.1.1 p.1.2
  return ⟨q.1, Nat.lt_of_le_of_lt q.2 p.2⟩

namespace Grammar

open Regex

/-- A relation between answers that equal answers have, and that two steps have if both have it. -/
structure Stepwise (R : (α : Type) → Except CompileError α → Except CompileError α → Prop) :
    Prop where
  refl {α : Type} (x : Except CompileError α) : R α x x
  bind {α β : Type} {x y : Except CompileError α} {f g : α → Except CompileError β}
    (h : R α x y) (hnext : ∀ a, x = .ok a → R β (f a) (g a)) : R β (x >>= f) (y >>= g)

variable {R : (α : Type) → Except CompileError α → Except CompileError α → Prop}
  {P : Token → Prop} {sourceEnd depth opened : Nat} {ts : List Token}
  {read read' : TokenReader Regex} {nested nested' : Nat → TokenReader Regex}

/-- The tokens behind a phrase are among those it starts. -/
theorem Stands.forall_mem {σ : Symbol} {d : Derivation σ} {after : List Token}
    (hd : Stands d ts after) (h : ∀ t ∈ ts, P t) : ∀ t ∈ after, P t := by
  rw [hd.tokens_eq, List.forall_mem_append] at h
  exact h.2

namespace Stepwise

variable (hR : Stepwise R)
include hR

theorem group (h : R _ (nested opened ts) (nested' opened ts)) :
    R _ (Regex.group nested opened ts) (Regex.group nested' opened ts) := by
  unfold Regex.group
  split_ifs with hquestion
  · exact hR.refl _
  · exact hR.bind h fun _ _ ↦ hR.refl _

/-- Readers of atoms answer alike if they do so in parentheses. -/
theorem atom (hnested : ∀ opened ts, (∀ t ∈ ts, P t) → R _ (nested opened ts) (nested' opened ts))
    (hts : ∀ t ∈ ts, P t) :
    R _ (Regex.atom sourceEnd nested ts) (Regex.atom sourceEnd nested' ts) := by
  cases ts with
  | nil => exact hR.refl _
  | cons t ts =>
    have hinside := hnested t.start ts (List.forall_mem_cons.mp hts).2
    cases hkind : t.kind with
    | parenOpen =>
      simp only [Regex.atom, hkind]
      exact hR.bind (hR.group hinside) fun _ _ ↦ hR.refl _
    | _ =>
      simp only [Regex.atom, hkind]
      exact hR.refl _

theorem itemWith (h : R _ (read ts) (read' ts)) :
    R _ (Regex.itemWith read ts) (Regex.itemWith read' ts) :=
  hR.bind h fun _ _ ↦ hR.refl _

/-- Behind a phrase the readers are compared on what it leaves. -/
theorem bind_phrase {σ : Symbol} {β : Type} {f g : Parsed Regex ts → Except CompileError β}
    (hreads : ReadsPhrases read σ depth) (h : R _ (read ts) (read' ts)) (hts : ∀ t ∈ ts, P t)
    (hnext : ∀ r rest hlt, (∀ t ∈ rest, P t) →
      R _ (f ⟨(r, rest), hlt⟩) (g ⟨(r, rest), hlt⟩)) :
    R _ (read ts >>= f) (read' ts >>= g) := by
  refine hR.bind h fun p hok ↦ ?_
  obtain ⟨⟨r, rest⟩, hlt⟩ := p
  obtain ⟨d, hd, _⟩ := (hreads _ _ _).mp ⟨hlt, hok⟩
  exact hnext r rest hlt (hd.forall_mem hts)

section Items

variable (hitem : ReadsPhrases read .item depth)
  (hread : ∀ ts, (∀ t ∈ ts, P t) → ¬ sequenceEnds ts = true → R _ (read ts) (read' ts))
include hitem hread

theorem items (ts : List Token) (hts : ∀ t ∈ ts, P t) :
    R _ (Regex.items read ts) (Regex.items read' ts) := by
  rw [Regex.items, Regex.items]
  split_ifs with hends
  · exact hR.refl _
  · refine hR.bind_phrase hitem (hread ts hts hends) hts fun r rest hlt hrest ↦ ?_
    exact hR.bind (items rest hrest) fun _ _ ↦ hR.refl _
termination_by ts.length

theorem sequence (ts : List Token) (hts : ∀ t ∈ ts, P t) :
    R _ (Regex.sequence sourceEnd read ts) (Regex.sequence sourceEnd read' ts) := by
  unfold Regex.sequence
  split_ifs with hends
  · exact hR.refl _
  · refine hR.bind_phrase hitem (hread ts hts hends) hts fun r rest hlt hrest ↦ ?_
    exact hR.bind (hR.items hitem hread rest hrest) fun _ _ ↦ hR.refl _

end Items

section Choices

variable (hsequence : ReadsPhrases read .sequence depth)
  (hread : ∀ ts, (∀ t ∈ ts, P t) → R _ (read ts) (read' ts))
include hsequence hread

theorem choices : ∀ ts : List Token, (∀ t ∈ ts, P t) →
    R _ (Regex.choices read ts) (Regex.choices read' ts)
  | [], _ => by
    rw [Regex.choices, Regex.choices]
    exact hR.refl _
  | t :: ts, hts => by
    rw [Regex.choices, Regex.choices]
    split_ifs with hbar
    · rw [List.forall_mem_cons] at hts
      refine hR.bind_phrase hsequence (hread ts hts.2) hts.2 fun r rest hlt hrest ↦ ?_
      exact hR.bind (choices rest hrest) fun _ _ ↦ hR.refl _
    · exact hR.refl _
termination_by ts => ts.length
decreasing_by exact Nat.lt_succ_of_lt hlt

end Choices

/-- Readers of patterns answer alike if their readers of items do. -/
theorem alternation (hitem : ReadsPhrases read .item depth)
    (hread : ∀ ts, (∀ t ∈ ts, P t) → ¬ sequenceEnds ts = true → R _ (read ts) (read' ts))
    (hts : ∀ t ∈ ts, P t) :
    R _ (Regex.alternation sourceEnd read ts) (Regex.alternation sourceEnd read' ts) := by
  have hsequence : ReadsPhrases (Regex.sequence sourceEnd read) .sequence depth :=
    readsPhrases_sequence hitem
  have hrelated : ∀ ts, (∀ t ∈ ts, P t) →
      R _ (Regex.sequence sourceEnd read ts) (Regex.sequence sourceEnd read' ts) :=
    hR.sequence hitem hread
  refine hR.bind_phrase hsequence (hrelated ts hts) hts fun r rest hlt hrest ↦ ?_
  exact hR.bind (hR.choices hsequence hrelated rest hrest) fun _ _ ↦ hR.refl _

/-- Readers of patterns answer alike if their readers of atoms do where an atom is asked for. -/
theorem pattern (hinside : ReadsInside nested depth)
    (hatom : ∀ ts, (∀ t ∈ ts, P t) → ¬ sequenceEnds ts = true →
      R _ (Regex.atom sourceEnd nested ts) (read' ts)) (hts : ∀ t ∈ ts, P t) :
    R _ (Regex.alternation sourceEnd (Regex.item sourceEnd nested) ts)
      (Regex.alternation sourceEnd (Regex.itemWith read') ts) :=
  hR.alternation (readsPhrases_item (readsPhrases_atom hinside))
    (fun ts hts hends ↦ hR.itemWith (hatom ts hts hends)) hts

end Stepwise

end Grammar

end SignalRegex
