import Mathlib.Tactic.SplitIfs
import SignalRegex.Pattern.Parser

/-!
Reading a pattern with a counter of the parentheses that are open.

The readers share a counter instead of being told how much depth is left. It goes up on the way into
parentheses, where it is held against the limit, and down behind what stands in them. A reader that
fails leaves it where it is (`run_enclosed`). A reader that succeeds leaves it as it was (`Counts`),
so groups next to each other do not add up, and every reader finds in it the number of parentheses
around it. So a pattern is read as with the depth that is left (`parseWithin_eq`).
-/

set_option autoImplicit false

namespace SignalRegex

/-- A reader with a counter, which has a value also where the reader fails. -/
abbrev CountingReader (α : Type) : Type :=
  (ts : List Token) → ExceptT CompileError (StateM Nat) (Parsed α ts)

namespace Counting

open Regex

variable {ts : List Token}

theorem length_lt_of_quantified (p : Parsed Regex ts)
    (q : { q : Regex × List Token // q.2.length ≤ p.1.2.length }) : q.1.2.length < ts.length :=
  Nat.lt_of_le_of_lt q.2 p.2

/-- What stands in the parentheses that open at `opened`. -/
def enclosed (limit : Nat) (inside : CountingReader Regex) (opened : Nat) :
    CountingReader Regex := fun ts ↦ do
  modify (· + 1)
  if limit < (← get) then
    throw (.malformed opened .nestedTooDeeply)
  let p ← inside ts
  modify (· - 1)
  return p

def group (limit : Nat) (inside : CountingReader Regex) (opened : Nat) :
    CountingReader Regex := fun ts ↦ do
  if startsWith .question ts then
    throw (.unsupported (offset opened ts) .groupModifier)
  let p ← enclosed limit inside opened ts
  let q ← closeGroup opened p.1.2
  return ⟨(p.1.1, q.1.2), Nat.lt_trans q.2 p.2⟩

/-- An atom. Only a group has to do with the counter. -/
def atom (limit sourceEnd : Nat) (inside : CountingReader Regex) : CountingReader Regex
  | [] => throw (.malformed sourceEnd .expectedExpression)
  | t :: rest =>
    if t.kind = .parenOpen then do
      let p ← group limit inside t.start rest
      return ⟨p.1, Nat.lt_succ_of_lt p.2⟩
    else
      liftM (Regex.atom sourceEnd
        (fun opened _ ↦ .error (.malformed opened .nestedTooDeeply)) (t :: rest))

def item (limit sourceEnd : Nat) (inside : CountingReader Regex) : CountingReader Regex :=
  fun ts ↦ do
    let p ← atom limit sourceEnd inside ts
    let q ← quantify p.1.1 p.1.2
    return ⟨q.1, length_lt_of_quantified p q⟩

def items (read : CountingReader Regex) (ts : List Token) :
    ExceptT CompileError (StateM Nat) { p : List Regex × List Token // p.2.length ≤ ts.length } :=
  if sequenceEnds ts then
    return ⟨([], ts), Nat.le_refl _⟩
  else do
    let p ← read ts
    let q ← items read p.1.2
    return ⟨(p.1.1 :: q.1.1, q.1.2), Nat.le_trans q.2 (Nat.le_of_lt p.2)⟩
termination_by ts.length
decreasing_by exact p.2

def sequence (sourceEnd : Nat) (read : CountingReader Regex) : CountingReader Regex := fun ts ↦ do
  if sequenceEnds ts then
    throw (.malformed (offset sourceEnd ts) .expectedExpression)
  let p ← read ts
  let q ← items read p.1.2
  return ⟨(ofSequence (p.1.1 :: q.1.1), q.1.2), Nat.lt_of_le_of_lt q.2 p.2⟩

def choices (read : CountingReader Regex) (ts : List Token) :
    ExceptT CompileError (StateM Nat) { p : List Regex × List Token // p.2.length ≤ ts.length } :=
  match ts with
  | [] => return ⟨([], []), Nat.le_refl _⟩
  | t :: rest =>
    if t.kind = .pipe then do
      let p ← read rest
      let q ← choices read p.1.2
      return ⟨(p.1.1 :: q.1.1, q.1.2), Nat.le_succ_of_le (Nat.le_trans q.2 (Nat.le_of_lt p.2))⟩
    else return ⟨([], t :: rest), Nat.le_refl _⟩
termination_by ts.length
decreasing_by exact Nat.lt_succ_of_lt p.2

def alternation (sourceEnd : Nat) (read : CountingReader Regex) : CountingReader Regex :=
  fun ts ↦ do
    let p ← sequence sourceEnd read ts
    let q ← choices (sequence sourceEnd read) p.1.2
    return ⟨(ofChoices (p.1.1 :: q.1.1), q.1.2), Nat.lt_of_le_of_lt q.2 p.2⟩

/-- A pattern. The counter is held against the limit on every level, so with one level more than the
limit the recursion ends before the levels do. -/
def nested (limit sourceEnd : Nat) : (levels : Nat) → CountingReader Regex
  | 0 => fun _ ↦ throw (.malformed sourceEnd .nestedTooDeeply)
  | levels + 1 => alternation sourceEnd
      (item limit sourceEnd fun ts ↦ nested limit sourceEnd levels ts)

/-- The tree of a pattern, read with a counter that starts at zero. -/
def parseWithin (limit : Nat) (source : String) : Except CompileError Regex := do
  let p ← ((nested limit (byteLength source.toList) (limit + 1) (Token.scan source)).run.run 0).1
  match p.1.2 with
  | [] => return p.1.1
  | t :: _ =>
    if t.kind = .parenClose then throw (.malformed t.start .unbalancedParenthesis)
    else throw (.malformed t.start .trailingInput)

/-! ### Readers with and without a counter -/

/-- The first reader answers like the second, and where it succeeds it leaves the counter as it
was. -/
def Counts {α : Type} (count : Nat) (x : ExceptT CompileError (StateM Nat) α)
    (y : Except CompileError α) : Prop :=
  (x.run.run count).1 = y ∧ ∀ a, y = .ok a → (x.run.run count).2 = count

variable {α β : Type} {count limit sourceEnd opened : Nat}

theorem counts_lift (count : Nat) (y : Except CompileError α) : Counts count (liftM y) y :=
  ⟨rfl, fun _ _ ↦ rfl⟩

theorem counts_throw (count : Nat) (e : CompileError) :
    Counts count (throw e : ExceptT CompileError (StateM Nat) α) (.error e) :=
  ⟨rfl, fun _ _ ↦ rfl⟩

theorem counts_pure (count : Nat) (a : α) :
    Counts count (pure a : ExceptT CompileError (StateM Nat) α) (.ok a) :=
  ⟨rfl, fun _ _ ↦ rfl⟩

theorem Counts.bind {x : ExceptT CompileError (StateM Nat) α} {y : Except CompileError α}
    {f : α → ExceptT CompileError (StateM Nat) β} {g : α → Except CompileError β}
    (h : Counts count x y) (hnext : ∀ a, Counts count (f a) (g a)) :
    Counts count (x >>= f) (y >>= g) := by
  obtain ⟨hvalue, hcount⟩ := h
  have hrun : (x >>= f).run.run count =
      (ExceptT.bindCont f (x.run.run count).1).run (x.run.run count).2 := rfl
  unfold Counts
  rw [hrun, hvalue]
  cases y with
  | error e => exact ⟨rfl, fun _ h ↦ by cases h⟩
  | ok a =>
    rw [hcount a rfl]
    exact hnext a

/-- Where parentheses are refused, and where reading fails in them, the counter keeps what they
added to it. -/
theorem run_enclosed (limit : Nat) (inside : CountingReader Regex) (opened : Nat)
    (ts : List Token) (count : Nat) :
    (enclosed limit inside opened ts).run.run count =
      if limit < count + 1 then (.error (.malformed opened .nestedTooDeeply), count + 1)
      else match (inside ts).run.run (count + 1) with
        | (.ok p, left) => (.ok p, left - 1)
        | (.error e, left) => (.error e, left) := by
  unfold enclosed
  change StateT.run (ExceptT.run (if limit < count + 1 then _ else _)) (count + 1) = _
  split_ifs with hlimit
  · rfl
  · change StateT.run (ExceptT.bindCont _ ((inside ts).run.run (count + 1)).1)
      ((inside ts).run.run (count + 1)).2 = _
    rcases (inside ts).run.run (count + 1) with ⟨_ | p, left⟩
    · rfl
    · rfl

/-- At the limit parentheses are refused, and below it what they enclose is read with one more of
them open. -/
theorem counts_enclosed {inside : CountingReader Regex} {y : Except CompileError (Parsed Regex ts)}
    (hmet : limit ≤ count → y = .error (.malformed opened .nestedTooDeeply))
    (hinside : count < limit → Counts (count + 1) (inside ts) y) :
    Counts count (enclosed limit inside opened ts) y := by
  rw [Counts, run_enclosed]
  split_ifs with hlimit
  · rw [hmet (Nat.le_of_lt_succ hlimit)]
    exact ⟨rfl, fun _ h ↦ by cases h⟩
  · obtain ⟨hvalue, hcount⟩ := hinside (Nat.lt_of_succ_le (Nat.le_of_not_lt hlimit))
    rcases hrun : (inside ts).run.run (count + 1) with ⟨e | p, left⟩
    · rw [hrun] at hvalue
      exact ⟨hvalue, fun _ h ↦ by cases hvalue.trans h⟩
    · rw [hrun] at hvalue hcount
      exact ⟨hvalue, fun _ _ ↦ congrArg (· - 1) (hcount p hvalue.symm)⟩

section Parentheses

variable {inside : CountingReader Regex} {nested : Nat → TokenReader Regex}

theorem counts_group (h : Counts count (enclosed limit inside opened ts) (nested opened ts)) :
    Counts count (group limit inside opened ts) (Regex.group nested opened ts) := by
  unfold group Regex.group
  split_ifs with hquestion
  · exact counts_throw count _
  · refine h.bind fun p ↦ ?_
    obtain ⟨⟨r, rest⟩, hlt⟩ := p
    refine (counts_lift count _).bind fun q ↦ ?_
    exact counts_pure count _

theorem counts_atom (h : ∀ opened ts,
    Counts count (enclosed limit inside opened ts) (nested opened ts)) (ts : List Token) :
    Counts count (atom limit sourceEnd inside ts) (Regex.atom sourceEnd nested ts) := by
  cases ts with
  | nil => exact counts_throw count _
  | cons t rest =>
    rw [atom]
    split_ifs with hkind
    · simp only [Regex.atom, hkind]
      exact (counts_group (h t.start rest)).bind fun p ↦ counts_pure count _
    · have hatom : Regex.atom sourceEnd (fun opened _ ↦ .error (.malformed opened .nestedTooDeeply))
          (t :: rest) = Regex.atom sourceEnd nested (t :: rest) := by
        cases h : t.kind <;> simp_all [Regex.atom]
      rw [hatom]
      exact counts_lift count _

theorem counts_item (h : ∀ opened ts,
    Counts count (enclosed limit inside opened ts) (nested opened ts)) (ts : List Token) :
    Counts count (item limit sourceEnd inside ts) (Regex.item sourceEnd nested ts) := by
  refine (counts_atom h ts).bind fun p ↦ ?_
  obtain ⟨⟨r, rest⟩, hlt⟩ := p
  exact (counts_lift count _).bind fun q ↦ counts_pure count _

end Parentheses

section Sequences

variable {read : CountingReader Regex} {read' : TokenReader Regex}
  (h : ∀ ts, Counts count (read ts) (read' ts))
include h

theorem counts_items (ts : List Token) : Counts count (items read ts) (Regex.items read' ts) := by
  rw [items, Regex.items]
  split_ifs with hends
  · exact counts_pure count _
  · refine (h ts).bind fun p ↦ ?_
    obtain ⟨⟨r, rest⟩, hlt⟩ := p
    exact (counts_items rest).bind fun q ↦ counts_pure count _
termination_by ts.length

theorem counts_sequence (ts : List Token) :
    Counts count (sequence sourceEnd read ts) (Regex.sequence sourceEnd read' ts) := by
  unfold sequence Regex.sequence
  split_ifs with hends
  · exact counts_throw count _
  · refine (h ts).bind fun p ↦ ?_
    obtain ⟨⟨r, rest⟩, hlt⟩ := p
    exact (counts_items h rest).bind fun q ↦ counts_pure count _

theorem counts_choices : ∀ ts : List Token,
    Counts count (choices read ts) (Regex.choices read' ts)
  | [] => by
    rw [choices, Regex.choices]
    exact counts_pure count _
  | t :: rest => by
    rw [choices, Regex.choices]
    split_ifs with hbar
    · refine (h rest).bind fun p ↦ ?_
      obtain ⟨⟨r, after⟩, hlt⟩ := p
      exact (counts_choices after).bind fun q ↦ counts_pure count _
    · exact counts_pure count _
termination_by ts => ts.length
decreasing_by exact Nat.lt_succ_of_lt hlt

theorem counts_alternation (ts : List Token) :
    Counts count (alternation sourceEnd read ts) (Regex.alternation sourceEnd read' ts) := by
  refine (counts_sequence h ts).bind fun p ↦ ?_
  obtain ⟨⟨r, rest⟩, hlt⟩ := p
  exact (counts_choices (counts_sequence h) rest).bind fun q ↦ counts_pure count _

end Sequences

/-! ### Whole patterns -/

/-- With `count` parentheses open, a pattern is read as with the depth that is left below the
limit. -/
theorem counts_nested {levels : Nat} (sourceEnd : Nat) (hcount : count ≤ limit)
    (hlevels : limit < count + levels) (ts : List Token) :
    Counts count (nested limit sourceEnd levels ts)
      (nestedWithin sourceEnd (limit - count) ts) := by
  induction levels generalizing count ts with
  | zero => omega
  | succ levels ih =>
    cases hleft : limit - count with
    | zero =>
      refine counts_alternation (counts_item fun opened ts ↦ ?_) ts
      refine counts_enclosed (fun _ ↦ rfl) fun hlt ↦ ?_
      omega
    | succ left =>
      refine counts_alternation (counts_item fun opened ts ↦ ?_) ts
      refine counts_enclosed (fun hle ↦ ?_) fun hlt ↦ ?_
      · omega
      · have hinside := ih hlt (by omega) ts
        rwa [show limit - (count + 1) = left by omega] at hinside

/-- A pattern is read with the counter as with the depth that is left. -/
theorem parseWithin_eq (limit : Nat) (source : String) :
    parseWithin limit source = Regex.parseWithin limit source := by
  have hlevels : limit < 0 + (limit + 1) := by omega
  have hnested := counts_nested (byteLength source.toList) (Nat.zero_le limit) hlevels
    (Token.scan source)
  rw [parseWithin, hnested.1]
  rfl

end Counting

end SignalRegex
