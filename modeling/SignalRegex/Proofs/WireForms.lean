import Mathlib.Data.List.Forall2
import Mathlib.Data.List.Perm.Basic
import Mathlib.Data.Set.List
import SignalRegex.Proofs.BlockPieces
import SignalRegex.Proofs.ProgramChecks
import SignalRegex.Wire.Program

/-!
What is written in wire form reads back.

A record does not keep its fields in an order, so a value is read back from every reordering of what
was written (`ReadsAs`). A writer and a reader are faithful when this holds of all that fits the
wire, and when whatever is read fits (`Faithful`); there is one such fact for each type, made of
those of its fields. What fits are numbers of as many bits as the wire has for them. Ranges and sets
always fit: the ranges of a set are sorted, so the reader that sorts them again changes nothing.
-/

set_option autoImplicit false

namespace SignalRegex

namespace Wire

/-- The same value up to the order of the fields in records. -/
inductive Value.Reordered : Value → Value → Prop where
  | refl (v : Value) : Reordered v v
  | list {items items' : List Value} :
      List.Forall₂ Reordered items items' → Reordered (.list items) (.list items')
  | record {fields fields' : List (String × Value)} :
      (fields.map Prod.fst).Perm (fields'.map Prod.fst) →
      (∀ name u u', fields.lookup name = some u → fields'.lookup name = some u' → Reordered u u') →
        Reordered (.record fields) (.record fields')

variable {α : Type} {read? : Value → Option α} {write : α → Value} {P : α → Prop}

/-- The value is read as `a`, in whatever order its fields come. -/
def ReadsAs (read? : Value → Option α) (v : Value) (a : α) : Prop :=
  ∀ v', v.Reordered v' → read? v' = some a

/-- What has the property reads back from what is written of it, and all that is read has it. -/
structure Faithful (write : α → Value) (read? : Value → Option α) (P : α → Prop) : Prop where
  readsAs : ∀ a, P a → ReadsAs read? (write a) a
  yields : ∀ v a, read? v = some a → P a

/-! ### Numbers, texts and lists -/

theorem faithful_natBelow? (bound : Nat) :
    Faithful Value.ofNat (Value.natBelow? bound) (· < bound) := by
  constructor
  · rintro n hn _ ⟨⟩
    exact if_pos hn
  · intro v n hv
    unfold Value.natBelow? at hv
    split at hv
    · split_ifs at hv with hlt
      exact Option.some.inj hv ▸ hlt
    · cases hv

/-- A number that thirty-two bits can hold. -/
def IsWord (n : Nat) : Prop :=
  n < 0x100000000

/-- A number that eight bits can hold. -/
def IsByte (n : Nat) : Prop :=
  n < 0x100

theorem faithful_word? : Faithful Value.ofNat Value.word? IsWord :=
  faithful_natBelow? _

theorem faithful_byte? : Faithful Value.ofNat Value.byte? IsByte :=
  faithful_natBelow? _

theorem faithful_bool? : Faithful Value.bool Value.bool? fun _ ↦ True := by
  constructor
  · rintro b - _ ⟨⟩
    rfl
  · exact fun _ _ _ ↦ trivial

theorem faithful_text? : Faithful Value.text Value.text? fun _ ↦ True := by
  constructor
  · rintro s - _ ⟨⟩
    rfl
  · exact fun _ _ _ ↦ trivial

theorem list?_eq_some_iff {v : Value} {as : List α} : Value.list? read? v = some as ↔
    ∃ items, v = .list items ∧ List.Forall₂ (fun u a ↦ read? u = some a) items as := by
  constructor
  · intro hv
    unfold Value.list? at hv
    split at hv
    · exact ⟨_, rfl, mapM_eq_some_iff.mp hv⟩
    · cases hv
  · rintro ⟨items, rfl, hitems⟩
    exact mapM_eq_some_iff.mpr hitems

theorem Faithful.list (h : Faithful write read? P) :
    Faithful (fun l : List α ↦ .list (l.map write)) (Value.list? read?) (∀ a ∈ ·, P a) := by
  constructor
  · intro l hl v' hv
    obtain ⟨items, rfl, hitems⟩ :
        ∃ items, v' = .list items ∧ List.Forall₂ Value.Reordered (l.map write) items := by
      cases hv with
      | refl => exact ⟨_, rfl, List.forall₂_same.mpr fun v _ ↦ .refl v⟩
      | list hitems => exact ⟨_, rfl, hitems⟩
    have hboth := (List.forall₂_and_left l items).mpr ⟨hl, List.forall₂_map_left_iff.mp hitems⟩
    have hread := hboth.imp fun a v hav ↦ h.readsAs a hav.1 v hav.2
    exact list?_eq_some_iff.mpr ⟨items, rfl, hread.flip⟩
  · intro v l hv
    obtain ⟨items, -, hitems⟩ := list?_eq_some_iff.mp hv
    have hboth := hitems.flip.imp fun a v hav ↦ And.intro (h.yields v a hav) hav
    exact ((List.forall₂_and_left _ _).mp hboth).1

/-! ### Fields -/

theorem mem_names_iff {fields : List (String × Value)} {name : String} :
    name ∈ fields.map Prod.fst ↔ ∃ u, fields.lookup name = some u := by
  rw [← Option.isSome_iff_exists, List.lookup_isSome_iff, List.mem_map]
  simp only [beq_iff_eq, eq_comm (a := name)]

/-- A field is there once, with the given value. -/
theorem filter_eq_singleton_iff {fields : List (String × Value)} {name : String} {u : Value} :
    fields.filter (·.1 == name) = [(name, u)] ↔
      (fields.map Prod.fst).count name = 1 ∧ fields.lookup name = some u := by
  induction fields with
  | nil => simp
  | cons field fields ih =>
    obtain ⟨name', u'⟩ := field
    by_cases hname : name' = name
    · subst hname
      have hnone : fields.filter (·.1 == name') = [] ↔ (fields.map Prod.fst).count name' = 0 := by
        rw [List.count, List.countP_map, List.countP_eq_length_filter, List.length_eq_zero_iff]
        rfl
      simp [List.lookup_cons_self, hnone, and_comm]
    · have hother : (name == name') = false := beq_false_of_ne (Ne.symm hname)
      simp [List.lookup_cons, hname, hother, ih]

theorem field?_eq_some_iff {v : Value} {names : List String} {name : String} {a : α} :
    v.field? names name read? = some a ↔
      ∃ u, v.field? names name some = some u ∧ read? u = some a := by
  unfold Value.field?
  split
  · split
    · simp
    · simp
  · split_ifs
    · simp only [Option.bind_eq_some_iff, Option.some.injEq, exists_eq_right]
    · simp
  · simp

theorem field?_record {fields : List (String × Value)} {names : List String} {name : String}
    {u : Value} (h : fields.filter (·.1 == name) = [(name, u)]) :
    (Value.record fields).field? names name read? = read? u := by
  simp only [Value.field?, h]

/-- A field reads back from a record in which it stands as it was written. -/
theorem Faithful.field? (h : Faithful write read? P) (name : String) {names : List String}
    {fields : List (String × Value)} {v : Value} {a : α} (hv : (Value.record fields).Reordered v)
    (ha : P a) (hu : fields.filter (·.1 == name) = [(name, write a)]) :
    v.field? names name read? = some a := by
  cases hv with
  | refl =>
    rw [field?_record hu]
    exact h.readsAs a ha _ (.refl _)
  | record hnames hvalues =>
    obtain ⟨hcount, hlookup⟩ := filter_eq_singleton_iff.mp hu
    rw [hnames.count_eq] at hcount
    have hmem := List.count_pos_iff.mp (hcount ▸ Nat.one_pos)
    obtain ⟨u', hu'⟩ := mem_names_iff.mp hmem
    rw [field?_record (filter_eq_singleton_iff.mpr ⟨hcount, hu'⟩)]
    exact h.readsAs a ha u' (hvalues name _ u' hlookup hu')

theorem Faithful.of_field? (h : Faithful write read? P) {names : List String} {name : String}
    {v : Value} {a : α} (hv : v.field? names name read? = some a) : P a := by
  obtain ⟨u, -, hu⟩ := field?_eq_some_iff.mp hv
  exact h.yields u a hu

end Wire

open Wire

/-! ### Ranges and sets -/

namespace CodeRange

def bounds (r : CodeRange) : Nat × Nat :=
  (r.start, r.stop)

theorem bounds_injective : Function.Injective bounds := by
  rintro ⟨start, stop, _, _⟩ ⟨start', stop', _, _⟩ h
  obtain ⟨rfl, rfl⟩ := Prod.mk.inj h
  rfl

theorem le_antisymm {r s : CodeRange} (hrs : r ≤ s) (hsr : s ≤ r) : r = s := by
  rw [le_def] at hrs hsr
  exact bounds_injective (Prod.ext (by simp only [bounds]; omega) (by simp only [bounds]; omega))

theorem toOption_ofBounds_eq_some_iff {start stop : Nat} {r : CodeRange} :
    (ofBounds start stop).toOption = some r ↔ (start, stop) = r.bounds := by
  unfold ofBounds
  split_ifs with h
  · exact Option.some_inj.trans bounds_injective.eq_iff.symm
  · constructor
    · intro hnone
      cases hnone
    · rintro hbounds
      obtain ⟨rfl, rfl⟩ := Prod.mk.inj hbounds
      exact absurd ⟨r.start_lt_stop, r.stop_le⟩ h

/-- The two numbers that a value gives as bounds, whether or not they make a range. -/
def boundsOfWire? (v : Value) : Option (Nat × Nat) := do
  let start ← v.field? fieldNames "start" Value.word?
  let stop ← v.field? fieldNames "stop" Value.word?
  return (start, stop)

theorem ofWire?_eq_some_iff {v : Value} {r : CodeRange} :
    ofWire? v = some r ↔ boundsOfWire? v = some r.bounds := by
  simp only [ofWire?, boundsOfWire?, Option.bind_eq_bind, Option.bind_eq_some_iff,
    toOption_ofBounds_eq_some_iff, Option.pure_def, Option.some.injEq]

theorem faithful_ofWire? : Faithful toWire ofWire? fun _ ↦ True := by
  constructor
  · intro r _ v hv
    have hle : r.stop ≤ 0x200000 := r.stop_le
    have hstop : IsWord r.stop := by unfold IsWord; omega
    have hstart : IsWord r.start := Nat.lt_trans r.start_lt_stop hstop
    rw [ofWire?_eq_some_iff, boundsOfWire?, faithful_word?.field? "start" hv hstart rfl,
      faithful_word?.field? "stop" hv hstop rfl]
    rfl
  · exact fun _ _ _ ↦ trivial

end CodeRange

namespace CharSet

theorem ext_ranges {s t : CharSet} (h : s.ranges = t.ranges) : s = t := by
  cases s
  cases t
  congr

theorem ofRanges_eq_iff {ranges : List CodeRange} {s : CharSet} :
    ofRanges ranges = s ↔ ranges.Perm s.ranges := by
  have hperm : (ofRanges ranges).ranges.Perm ranges := List.mergeSort_perm _ _
  constructor
  · rintro rfl
    exact hperm.symm
  · intro h
    exact ext_ranges ((hperm.trans h).eq_of_pairwise (fun _ _ _ _ ↦ CodeRange.le_antisymm)
      (ofRanges ranges).sorted s.sorted)

/-- The value gives the bounds of ranges of the alphabet, and the set has these ranges, by start and
then by stop. -/
def SortedFrom (s : CharSet) (v : Value) : Prop :=
  ∃ bounds, v.field? fieldNames "ranges" (Value.list? CodeRange.boundsOfWire?) = some bounds ∧
    (∀ b ∈ bounds, b.1 < b.2 ∧ b.2 ≤ 0x200000) ∧ bounds.Perm (s.ranges.map CodeRange.bounds) ∧
    (s.ranges.map CodeRange.bounds).Pairwise fun b c ↦ b.1 < c.1 ∨ b.1 = c.1 ∧ b.2 ≤ c.2

theorem field?_ranges_iff {v : Value} {ranges : List CodeRange} :
    v.field? fieldNames "ranges" (Value.list? CodeRange.ofWire?) = some ranges ↔
      v.field? fieldNames "ranges" (Value.list? CodeRange.boundsOfWire?) =
        some (ranges.map CodeRange.bounds) := by
  rw [field?_eq_some_iff, field?_eq_some_iff]
  simp only [list?_eq_some_iff, List.forall₂_map_right_iff, CodeRange.ofWire?_eq_some_iff]

theorem ofWire?_eq_some_iff {v : Value} {s : CharSet} : ofWire? v = some s ↔ s.SortedFrom v := by
  simp only [ofWire?, Option.bind_eq_bind, Option.bind_eq_some_iff, Option.pure_def,
    Option.some.injEq, ofRanges_eq_iff, field?_ranges_iff]
  constructor
  · rintro ⟨ranges, hv, hperm⟩
    refine ⟨_, hv, ?_, hperm.map _, List.pairwise_map.mpr s.sorted⟩
    intro b hb
    obtain ⟨r, -, rfl⟩ := List.mem_map.mp hb
    exact ⟨r.start_lt_stop, r.stop_le⟩
  · rintro ⟨bounds, hv, hvalid, hperm, -⟩
    obtain ⟨ranges, rfl⟩ : bounds ∈ Set.range (List.map CodeRange.bounds) := by
      rw [Set.range_list_map]
      intro b hb
      exact ⟨⟨b.1, b.2, (hvalid b hb).1, (hvalid b hb).2⟩, rfl⟩
    exact ⟨ranges, hv, (List.map_perm_map_iff CodeRange.bounds_injective).mp hperm⟩

theorem faithful_ofWire? : Faithful toWire ofWire? fun _ ↦ True := by
  constructor
  · intro s _ v hv
    rw [ofWire?, CodeRange.faithful_ofWire?.list.field? "ranges" hv (fun _ _ ↦ trivial) rfl]
    exact congrArg some (ofRanges_eq_iff.mpr (List.Perm.refl _))
  · exact fun _ _ _ ↦ trivial

end CharSet

/-! ### Signals and conditions -/

namespace SubRange

structure WordSized (s : SubRange) : Prop where
  block : IsWord s.block
  low : IsByte s.low
  high : IsByte s.high

theorem InBounds.wordSized {s : SubRange} (h : s.InBounds) : s.WordSized := by
  unfold InBounds blockCount lastOffset at h
  exact ⟨by unfold IsWord; omega, by unfold IsByte; omega, by unfold IsByte; omega⟩

theorem faithful_ofWire? : Faithful toWire ofWire? WordSized := by
  constructor
  · intro s hs v hv
    rw [ofWire?, faithful_word?.field? "block" hv hs.block rfl,
      faithful_byte?.field? "start" hv hs.low rfl, faithful_byte?.field? "end" hv hs.high rfl]
    rfl
  · intro v s hv
    simp only [ofWire?, Option.bind_eq_bind, Option.bind_eq_some_iff, Option.pure_def,
      Option.some.injEq] at hv
    obtain ⟨block, hblock, low, hlow, high, hhigh, rfl⟩ := hv
    exact ⟨faithful_word?.of_field? hblock, faithful_byte?.of_field? hlow,
      faithful_byte?.of_field? hhigh⟩

end SubRange

namespace RangeSignal

def WordSized (s : RangeSignal) : Prop :=
  ∀ r ∈ s.subranges, r.WordSized

theorem wordSized_ofCharSet (set : CharSet) : (ofCharSet set).WordSized :=
  fun _ hr ↦ (SubRange.inBounds_of_mem_decompose hr).wordSized

theorem faithful_ofWire? : Faithful toWire ofWire? WordSized := by
  constructor
  · intro s hs v hv
    rw [ofWire?, CharSet.faithful_ofWire?.field? "charset" hv trivial rfl,
      SubRange.faithful_ofWire?.list.field? "subranges" hv hs rfl]
    rfl
  · intro v s hv
    simp only [ofWire?, Option.bind_eq_bind, Option.bind_eq_some_iff, Option.pure_def,
      Option.some.injEq] at hv
    obtain ⟨charset, -, subranges, hsubranges, rfl⟩ := hv
    exact SubRange.faithful_ofWire?.list.of_field? hsubranges

end RangeSignal

namespace Condition

def WordSized (c : Condition) : Prop :=
  ∀ id, c.signal? = some id → IsWord id

/-- A record of one field has no other order, so the name of a choice stays alone in it. -/
theorem exists_of_reordered_single {name : String} {u v : Value}
    (h : (Value.record [(name, u)]).Reordered v) : ∃ u', v = .record [(name, u')] ∧
      u.Reordered u' := by
  cases h with
  | refl => exact ⟨u, rfl, .refl u⟩
  | @record _ fields' hnames hvalues =>
    obtain ⟨⟨name', u'⟩, rfl, hname⟩ := List.map_eq_singleton_iff.mp hnames.singleton_eq.symm
    obtain rfl : name' = name := hname
    exact ⟨u', rfl, hvalues name' u u' (List.lookup_cons_self ..) (List.lookup_cons_self ..)⟩

theorem faithful_ofWire? : Faithful toWire ofWire? WordSized := by
  constructor
  · intro c hc v hv
    cases c with
    | never =>
      cases hv
      rfl
    | always =>
      cases hv
      rfl
    | signal id negated =>
      obtain ⟨u, rfl, hu⟩ := exists_of_reordered_single hv
      simp only [ofWire?, faithful_word?.field? "id" hu (hc id rfl) rfl,
        faithful_bool?.field? "negated" hu trivial rfl]
      rfl
  · intro v c hv id hid
    unfold ofWire? at hv
    split at hv
    case h_5 =>
      simp only [Option.bind_eq_bind, Option.bind_eq_some_iff, Option.pure_def,
        Option.some.injEq] at hv
      obtain ⟨n, hn, negated, -, rfl⟩ := hv
      obtain rfl := Option.some.inj hid
      exact faithful_word?.of_field? hn
    case h_6 => cases hv
    all_goals
      cases hv
      cases hid

end Condition

/-! ### Programs -/

namespace Program

structure Edge.WordSized (e : Edge) : Prop where
  source : IsWord e.source
  condition : e.condition.WordSized

theorem Edge.faithful_ofWire? : Faithful toWire ofWire? WordSized := by
  constructor
  · intro e he v hv
    rw [ofWire?, faithful_word?.field? "source" hv he.source rfl,
      Condition.faithful_ofWire?.field? "condition" hv he.condition rfl]
    rfl
  · intro v e hv
    simp only [ofWire?, Option.bind_eq_bind, Option.bind_eq_some_iff, Option.pure_def,
      Option.some.injEq] at hv
    obtain ⟨source, hsource, condition, hcondition, rfl⟩ := hv
    exact ⟨faithful_word?.of_field? hsource, Condition.faithful_ofWire?.of_field? hcondition⟩

structure State.WordSized (s : State) : Prop where
  index : IsWord s.index
  incoming : ∀ e ∈ s.incoming, e.WordSized

theorem State.faithful_ofWire? : Faithful toWire ofWire? WordSized := by
  constructor
  · intro s hs v hv
    rw [ofWire?, faithful_word?.field? "index" hv hs.index rfl,
      faithful_bool?.field? "initial" hv trivial rfl,
      Edge.faithful_ofWire?.list.field? "incoming" hv hs.incoming rfl]
    rfl
  · intro v s hv
    simp only [ofWire?, Option.bind_eq_bind, Option.bind_eq_some_iff, Option.pure_def,
      Option.some.injEq] at hv
    obtain ⟨index, hindex, initial, -, incoming, hincoming, rfl⟩ := hv
    exact ⟨faithful_word?.of_field? hindex, Edge.faithful_ofWire?.list.of_field? hincoming⟩

def Pattern.WordSized (q : Pattern) : Prop :=
  ∀ k ∈ q.accepting, IsWord k

theorem Pattern.faithful_ofWire? : Faithful toWire ofWire? WordSized := by
  constructor
  · intro q hq v hv
    rw [ofWire?, faithful_text?.field? "source" hv trivial rfl,
      faithful_word?.list.field? "accepting" hv hq rfl]
    rfl
  · intro v q hv
    simp only [ofWire?, Option.bind_eq_bind, Option.bind_eq_some_iff, Option.pure_def,
      Option.some.injEq] at hv
    obtain ⟨source, -, accepting, haccepting, rfl⟩ := hv
    exact faithful_word?.list.of_field? haccepting

/-- All numbers in the tables fit the wire. -/
structure WordSized (p : Program) : Prop where
  states : ∀ s ∈ p.states, s.WordSized
  patterns : ∀ q ∈ p.patterns, q.WordSized
  signals : ∀ s ∈ p.signals, s.WordSized
  subranges : ∀ r ∈ p.subranges, r.WordSized
  alphabetSize : IsWord p.alphabetSize

theorem faithful_ofWire? : Faithful toWire ofWire? WordSized := by
  constructor
  · intro p hp v hv
    rw [ofWire?, faithful_text?.field? "name" hv trivial rfl,
      State.faithful_ofWire?.list.field? "states" hv hp.states rfl,
      Pattern.faithful_ofWire?.list.field? "patterns" hv hp.patterns rfl,
      RangeSignal.faithful_ofWire?.list.field? "signals" hv hp.signals rfl,
      SubRange.faithful_ofWire?.list.field? "subranges" hv hp.subranges rfl,
      faithful_word?.field? "alphabet_size" hv hp.alphabetSize rfl]
    rfl
  · intro v p hv
    simp only [ofWire?, Option.bind_eq_bind, Option.bind_eq_some_iff, Option.pure_def,
      Option.some.injEq] at hv
    obtain ⟨name, -, states, hstates, patterns, hpatterns, signals, hsignals, subranges,
      hsubranges, alphabetSize, halphabetSize, rfl⟩ := hv
    exact ⟨State.faithful_ofWire?.list.of_field? hstates,
      Pattern.faithful_ofWire?.list.of_field? hpatterns,
      RangeSignal.faithful_ofWire?.list.of_field? hsignals,
      SubRange.faithful_ofWire?.list.of_field? hsubranges,
      faithful_word?.of_field? halphabetSize⟩

/-- The shared subranges are those of the signals, so they fit when the signals do. -/
theorem wordSized_ofTables {name : String} {states : List State} {patterns : List Pattern}
    {signals : List RangeSignal} (hstates : ∀ s ∈ states, s.WordSized)
    (hpatterns : ∀ q ∈ patterns, q.WordSized) (hsignals : ∀ s ∈ signals, s.WordSized) :
    (ofTables name states patterns signals).WordSized where
  states := hstates
  patterns := hpatterns
  signals := hsignals
  subranges r hr := by
    obtain ⟨s, hs, hr⟩ := mem_sharedSubranges.mp hr
    exact hsignals s hs r hr
  alphabetSize := show SignalRegex.alphabetSize < 0x100000000 by decide

/-- The program and everything in it read back from what is written of them. -/
structure RoundTrips (p : Program) : Prop where
  program : ReadsAs ofWire? p.toWire p
  states : ∀ s ∈ p.states, ReadsAs State.ofWire? s.toWire s
  conditions : ∀ s ∈ p.states, ∀ e ∈ s.incoming,
    ReadsAs Condition.ofWire? e.condition.toWire e.condition
  patterns : ∀ q ∈ p.patterns, ReadsAs Pattern.ofWire? q.toWire q
  signals : ∀ s ∈ p.signals, ReadsAs RangeSignal.ofWire? s.toWire s
  charsets : ∀ s ∈ p.signals, ReadsAs CharSet.ofWire? s.charset.toWire s.charset
  subranges : ∀ r ∈ p.subranges, ReadsAs SubRange.ofWire? r.toWire r

theorem WordSized.roundTrips {p : Program} (h : p.WordSized) : p.RoundTrips where
  program := faithful_ofWire?.readsAs p h
  states s hs := State.faithful_ofWire?.readsAs s (h.states s hs)
  conditions s hs e he :=
    Condition.faithful_ofWire?.readsAs _ ((h.states s hs).incoming e he).condition
  patterns q hq := Pattern.faithful_ofWire?.readsAs q (h.patterns q hq)
  signals s hs := RangeSignal.faithful_ofWire?.readsAs s (h.signals s hs)
  charsets s _ := CharSet.faithful_ofWire?.readsAs s.charset trivial
  subranges r hr := SubRange.faithful_ofWire?.readsAs r (h.subranges r hr)

/-- The set of every signal is sorted from the ranges that the value gives for it. -/
def SetsSortedFrom (p : Program) (v : Value) : Prop :=
  ∃ items, v.field? fieldNames "signals" some = some (.list items) ∧
    List.Forall₂ (fun u s ↦ ∃ w, u.field? RangeSignal.fieldNames "charset" some = some w ∧
      s.charset.SortedFrom w) items p.signals

theorem setsSortedFrom_of_ofWire? {v : Value} {p : Program} (h : ofWire? v = some p) :
    p.SetsSortedFrom v := by
  simp only [ofWire?, Option.bind_eq_bind, Option.bind_eq_some_iff, Option.pure_def,
    Option.some.injEq] at h
  obtain ⟨name, -, states, -, patterns, -, signals, hsignals, -, -, -, -, rfl⟩ := h
  obtain ⟨u, hu, hlist⟩ := field?_eq_some_iff.mp hsignals
  obtain ⟨items, rfl, hitems⟩ := list?_eq_some_iff.mp hlist
  refine ⟨items, hu, hitems.imp fun u s hs ↦ ?_⟩
  simp only [RangeSignal.ofWire?, Option.bind_eq_bind, Option.bind_eq_some_iff, Option.pure_def,
    Option.some.injEq] at hs
  obtain ⟨charset, hcharset, -, -, rfl⟩ := hs
  obtain ⟨w, hw, hset⟩ := field?_eq_some_iff.mp hcharset
  exact ⟨w, hw, CharSet.ofWire?_eq_some_iff.mp hset⟩

/-- A program put together from tables whose numbers fit the wire reads back from what is written of
it, with all its parts, when its signals were made of sets or were themselves read. So does whatever
is read as a program, and its sets are sorted from valid bounds. A value is read as a set exactly
when its bounds are those of the set in some order, and every set reads back. -/
theorem roundTrips_and_setsSortedFrom :
    (∀ (name : String) (states : List State) (patterns : List Pattern)
      (signals : List RangeSignal), (∀ s ∈ states, s.WordSized) → (∀ q ∈ patterns, q.WordSized) →
      (∀ s ∈ signals, (∃ set, s = .ofCharSet set) ∨ ∃ v, RangeSignal.ofWire? v = some s) →
        (ofTables name states patterns signals).RoundTrips) ∧
    (∀ v p, ofWire? v = some p → p.RoundTrips ∧ p.SetsSortedFrom v) ∧
    ∀ s : CharSet, ReadsAs CharSet.ofWire? s.toWire s ∧
      ∀ v, CharSet.ofWire? v = some s ↔ s.SortedFrom v := by
  refine ⟨?_, ?_, ?_⟩
  · intro name states patterns signals hstates hpatterns hsignals
    have hsized : ∀ s ∈ signals, s.WordSized := by
      intro s hs
      rcases hsignals s hs with ⟨set, rfl⟩ | ⟨v, hv⟩
      · exact RangeSignal.wordSized_ofCharSet set
      · exact RangeSignal.faithful_ofWire?.yields v s hv
    exact (wordSized_ofTables hstates hpatterns hsized).roundTrips
  · intro v p hv
    exact ⟨(faithful_ofWire?.yields v p hv).roundTrips, setsSortedFrom_of_ofWire? hv⟩
  · intro s
    exact ⟨CharSet.faithful_ofWire?.readsAs s trivial, fun _ ↦ CharSet.ofWire?_eq_some_iff⟩

/-- A set with two ranges, the later one first and written as a list, the other with its fields in
reverse. -/
def looseSet : Value :=
  .record [("ranges", .list [.list [.ofNat 98, .ofNat 100],
    .record [("stop", .ofNat 98), ("start", .ofNat 97)]])]

/-- A program with the loose set, and with a field that programs do not have. -/
def looseProgram : Value :=
  .record [("alphabet_size", .ofNat 7), ("name", .text "n"), ("states", .list []), ("note", .null),
    ("patterns", .list []), ("subranges", .list []),
    ("signals", .list [.record [("subranges", .list []), ("charset", looseSet)]])]

/-- The loose values are read, with the ranges sorted, and a program of one state and one signal
reads back. -/
theorem roundTrips_and_setsSortedFrom_loose :
    (ofTables "n" [⟨0, true, [⟨0, .signal 0 false⟩]⟩] [⟨"a*", [0]⟩]
      [.ofCharSet (.ofChars ['a'])]).RoundTrips ∧
    (∃ p, ofWire? looseProgram = some p ∧ p.RoundTrips ∧ p.SetsSortedFrom looseProgram) ∧
    ∃ s, CharSet.ofWire? looseSet = some s ∧
      s.ranges = [⟨97, 98, by decide, by decide⟩, ⟨98, 100, by decide, by decide⟩] := by
  obtain ⟨htables, hread, hset⟩ := roundTrips_and_setsSortedFrom
  have hzero : IsWord 0 := by unfold IsWord; decide
  refine ⟨htables _ _ _ _ ?_ ?_ ?_, ?_, ⟨_, by decide⟩, ((hset _).2 _).mpr ?_, rfl⟩
  · rintro s (_ | ⟨_, ⟨⟩⟩)
    refine ⟨hzero, ?_⟩
    rintro e (_ | ⟨_, ⟨⟩⟩)
    refine ⟨hzero, ?_⟩
    rintro id ⟨⟩
    exact hzero
  · rintro q (_ | ⟨_, ⟨⟩⟩) k (_ | ⟨_, ⟨⟩⟩)
    exact hzero
  · rintro s (_ | ⟨_, ⟨⟩⟩)
    exact .inl ⟨_, rfl⟩
  · have hreads : (ofWire? looseProgram).isSome := by decide +kernel
    obtain ⟨p, hp⟩ := Option.isSome_iff_exists.mp hreads
    exact ⟨p, hp, hread _ p hp⟩
  · exact ⟨[(98, 100), (97, 98)], by decide +kernel, by decide, by decide, by decide⟩

end Program

end SignalRegex
