import SignalRegex.Automaton.Thompson
import SignalRegex.Pattern.Language
import SignalRegex.Proofs.Chains

/-!
The automaton of a pattern accepts what the pattern matches (`acceptsBy_ofRegex`).

A fragment has a stretch of states to itself, so a way through it stays inside until it takes an
edge that its parent added. From this follows, for each kind of node, what can be read from each of
its states to an exit.
-/

set_option autoImplicit false

namespace SignalRegex.Automaton

namespace Fragment

/-- A text can be read on the way from a state to an exit. -/
inductive Leads (F : Fragment) : Nat → List Nat → Prop where
  | exit {i : Nat} : i ∈ F.finals → Leads F i []
  | slide {i t : Nat} {w : List Nat} : (i, t) ∈ F.epsilons → Leads F t w → Leads F i w
  | read {i t cp : Nat} {label : CharSet} {w : List Nat} :
      ⟨i, label, t⟩ ∈ F.reals → cp ∈ label → Leads F t w → Leads F i (cp :: w)

/-- A text can be read on the way from an entry to an exit. -/
def Accepts (F : Fragment) (w : List Nat) : Prop :=
  ∃ i ∈ F.initial, F.Leads i w

/-- The state is one of those that the fragment takes from `base` on. -/
def Owns (F : Fragment) (base i : Nat) : Prop :=
  base ≤ i ∧ i < base + F.size

/-- Every edge, entry and exit is among the states that the fragment takes. -/
structure Within (F : Fragment) (base : Nat) : Prop where
  reals : ∀ e ∈ F.reals, F.Owns base e.source ∧ F.Owns base e.target
  epsilons : ∀ e ∈ F.epsilons, F.Owns base e.1 ∧ F.Owns base e.2
  initial : ∀ i ∈ F.initial, F.Owns base i
  finals : ∀ i ∈ F.finals, F.Owns base i

/-- The fragment stands for the pattern. -/
structure Denotes (F : Fragment) (base : Nat) (r : Regex) : Prop where
  within : F.Within base
  accepts : ∀ w, F.Accepts w ↔ r.Matches w

variable {F G c p q : Fragment} {base i : Nat} {u v w : List Nat} {r : Regex}

theorem Within.owns_of_leads (h : F.Within base) (hleads : F.Leads i w) : F.Owns base i := by
  cases hleads with
  | exit hf => exact h.finals i hf
  | slide ht _ => exact (h.epsilons _ ht).1
  | read he _ _ => exact (h.reals _ he).1

/-- A way through a part of a fragment goes on from the exits of the part. -/
theorem Leads.append (hreals : ∀ e ∈ F.reals, e ∈ G.reals)
    (hepsilons : ∀ e ∈ F.epsilons, e ∈ G.epsilons) (hfinals : ∀ f ∈ F.finals, G.Leads f v)
    (h : F.Leads i u) : G.Leads i (u ++ v) := by
  induction h with
  | exit hf => exact hfinals _ hf
  | slide ht _ ih => exact .slide (hepsilons _ ht) ih
  | read he hcp _ ih => exact .read (hreals _ he) hcp ih

theorem Leads.mono (hreals : ∀ e ∈ F.reals, e ∈ G.reals)
    (hepsilons : ∀ e ∈ F.epsilons, e ∈ G.epsilons) (hfinals : ∀ f ∈ F.finals, f ∈ G.finals)
    (h : F.Leads i w) : G.Leads i w := by
  have hwhole := h.append hreals hepsilons fun f hf ↦ .exit (hfinals f hf)
  rwa [List.append_nil] at hwhole

theorem mem_link {sources targets : List Nat} {e : Nat × Nat} :
    e ∈ link sources targets ↔ e.1 ∈ sources ∧ e.2 ∈ targets := by
  constructor
  · intro he
    obtain ⟨s, hs, he⟩ := List.mem_flatMap.mp he
    obtain ⟨t, ht, rfl⟩ := List.mem_map.mp he
    exact ⟨hs, ht⟩
  · intro ⟨hs, ht⟩
    exact List.mem_flatMap.mpr ⟨e.1, hs, List.mem_map.mpr ⟨e.2, ht, rfl⟩⟩

/-! ### Leaves -/

theorem leads_leaf_exit {s : CharSet} (h : (leaf base s).Leads (base + 1) w) : w = [] := by
  cases h with
  | exit _ => rfl
  | slide ht _ => exact absurd ht List.not_mem_nil
  | read he _ _ =>
    have hsource := congrArg Edge.source (List.mem_singleton.mp he)
    exact absurd hsource (Nat.succ_ne_self base)

theorem denotes_leaf (base : Nat) (s : CharSet) : (leaf base s).Denotes base (.set s) := by
  have hentry : (leaf base s).Owns base base := ⟨Nat.le_refl _, Nat.lt_add_of_pos_right Nat.two_pos⟩
  have hexit : (leaf base s).Owns base (base + 1) := ⟨Nat.le_succ _, Nat.lt_succ_self _⟩
  refine ⟨⟨?_, ?_, ?_, ?_⟩, fun w ↦ ?_⟩
  · intro e he
    obtain rfl := List.mem_singleton.mp he
    exact ⟨hentry, hexit⟩
  · intro e he
    exact absurd he List.not_mem_nil
  · intro i hi
    exact List.mem_singleton.mp hi ▸ hentry
  · intro i hi
    exact List.mem_singleton.mp hi ▸ hexit
  · rw [Regex.matches_set]
    constructor
    · intro ⟨i, hi, hleads⟩
      obtain rfl := List.mem_singleton.mp hi
      cases hleads with
      | exit hf => exact absurd (List.mem_singleton.mp hf) (Nat.ne_of_lt (Nat.lt_succ_self _))
      | slide ht _ => exact absurd ht List.not_mem_nil
      | read he hcp hrest =>
        obtain ⟨-, rfl, rfl⟩ := Edge.mk.inj (List.mem_singleton.mp he)
        exact ⟨_, hcp, by rw [leads_leaf_exit hrest]⟩
    · intro ⟨cp, hcp, hw⟩
      subst hw
      exact ⟨base, List.mem_singleton_self _, .read (List.mem_singleton_self _) hcp
        (.exit (List.mem_singleton_self _))⟩

/-! ### Repetitions and options -/

/-- The state that a repetition or an option adds is none of those inside. -/
theorem not_owns_next (F : Fragment) (base : Nat) : ¬ F.Owns base (base + F.size) :=
  fun h ↦ Nat.lt_irrefl _ h.2

/-- The fragment puts one more state around its part, with edges to the entries of the part. What
can be read from the new state to an exit is in `hub`, and what can be read from an exit of the part
is in `rest`: the edges out of the part lead to the new state or back to the entries. -/
structure Wraps (G c : Fragment) (base : Nat) (hub rest : List Nat → Prop) : Prop where
  size : G.size = c.size + 1
  reals : G.reals = c.reals
  epsilons : ∀ e ∈ G.epsilons, e ∈ c.epsilons ∨ (e.1 = base + c.size ∧ e.2 ∈ c.initial) ∨
    e.1 ∈ c.finals ∧ (e.2 = base + c.size ∧ (∀ w, hub w → rest w) ∨
      e.2 ∈ c.initial ∧ ∀ u v, c.Accepts u → rest v → rest (u ++ v))
  initial : G.initial = [base + c.size]
  finals : ∀ f ∈ G.finals, (f = base + c.size ∧ hub []) ∨ (f ∈ c.finals ∧ rest [])
  enter : ∀ u v, c.Accepts u → rest v → hub (u ++ v)

section Wraps

variable {hub rest : List Nat → Prop}

theorem Wraps.within (h : Wraps G c base hub rest) (hc : c.Within base) : G.Within base := by
  have hnew : G.Owns base (base + c.size) :=
    ⟨Nat.le_add_right _ _, by rw [h.size]; exact Nat.lt_succ_self _⟩
  have hold : ∀ {i}, c.Owns base i → G.Owns base i :=
    fun hi ↦ ⟨hi.1, by rw [h.size]; exact Nat.lt_succ_of_lt hi.2⟩
  refine ⟨?_, ?_, ?_, ?_⟩
  · intro e he
    exact (hc.reals e (h.reals ▸ he)).imp hold hold
  · intro e he
    rcases h.epsilons e he with hin | ⟨hsource, hentry⟩ | ⟨hexit, ⟨hback, _⟩ | ⟨hentry, _⟩⟩
    · exact (hc.epsilons e hin).imp hold hold
    · exact ⟨hsource ▸ hnew, hold (hc.initial _ hentry)⟩
    · exact ⟨hold (hc.finals _ hexit), hback ▸ hnew⟩
    · exact ⟨hold (hc.finals _ hexit), hold (hc.initial _ hentry)⟩
  · intro i hi
    rw [h.initial] at hi
    exact List.mem_singleton.mp hi ▸ hnew
  · intro f hf
    rcases h.finals f hf with ⟨rfl, _⟩ | ⟨hexit, _⟩
    · exact hnew
    · exact hold (hc.finals f hexit)

theorem Wraps.leads (h : Wraps G c base hub rest) (hc : c.Within base) (hleads : G.Leads i w) :
    (i = base + c.size ∧ hub w) ∨ ∃ u v, c.Leads i u ∧ rest v ∧ w = u ++ v := by
  -- the new state is no state of the part, so what goes on in the part starts with a way through it
  have hinside : ∀ {t w}, c.Owns base t →
      (t = base + c.size ∧ hub w) ∨ (∃ u v, c.Leads t u ∧ rest v ∧ w = u ++ v) →
        ∃ u v, c.Leads t u ∧ rest v ∧ w = u ++ v := by
    rintro t w ht (⟨rfl, _⟩ | hin)
    · exact absurd ht (not_owns_next c base)
    · exact hin
  induction hleads with
  | exit hf =>
    rcases h.finals _ hf with hnew | ⟨hexit, hrest⟩
    · exact Or.inl hnew
    · exact Or.inr ⟨[], [], .exit hexit, hrest, rfl⟩
  | @slide i t w ht _ ih =>
    rcases h.epsilons _ ht with hin | ⟨hi, hentry⟩ | ⟨hexit, ⟨hback, hturn⟩ | ⟨hentry, hrepeat⟩⟩
    · obtain ⟨u, v, hu, hv, rfl⟩ := hinside (hc.epsilons _ hin).2 ih
      exact Or.inr ⟨u, v, .slide hin hu, hv, rfl⟩
    · obtain ⟨u, v, hu, hv, rfl⟩ := hinside (hc.initial _ hentry) ih
      exact Or.inl ⟨hi, h.enter u v ⟨t, hentry, hu⟩ hv⟩
    · rcases ih with ⟨_, hw⟩ | ⟨u, v, hu, _, _⟩
      · exact Or.inr ⟨[], w, .exit hexit, hturn w hw, rfl⟩
      · exact absurd (hback ▸ hc.owns_of_leads hu) (not_owns_next c base)
    · obtain ⟨u, v, hu, hv, rfl⟩ := hinside (hc.initial _ hentry) ih
      exact Or.inr ⟨[], u ++ v, .exit hexit, hrepeat u v ⟨t, hentry, hu⟩ hv, rfl⟩
  | read he hcp _ ih =>
    rw [h.reals] at he
    obtain ⟨u, v, hu, hv, rfl⟩ := hinside (hc.reals _ he).2 ih
    exact Or.inr ⟨_, v, .read he hcp hu, hv, rfl⟩

theorem Wraps.sound (h : Wraps G c base hub rest) (hc : c.Within base) (hw : G.Accepts w) :
    hub w := by
  obtain ⟨i, hi, hleads⟩ := hw
  rw [h.initial] at hi
  obtain rfl := List.mem_singleton.mp hi
  rcases h.leads hc hleads with ⟨_, hw⟩ | ⟨u, _, hu, _, _⟩
  · exact hw
  · exact absurd (hc.owns_of_leads hu) (not_owns_next c base)

end Wraps

theorem mem_epsilons_star {e : Nat × Nat} : e ∈ (star base c).epsilons ↔
    e ∈ c.epsilons ∨ (e.1 = base + c.size ∧ e.2 ∈ c.initial) ∨
      (e.1 ∈ c.finals ∧ e.2 = base + c.size) := by
  simp only [star, List.mem_append, mem_link, List.mem_singleton, or_assoc]

/-- From the hub repetitions can be read, and from inside the rest of one and then repetitions. -/
theorem wraps_star (hc : c.Denotes base r) :
    Wraps (star base c) c base (Regex.star r).Matches (Regex.star r).Matches where
  size := rfl
  reals := rfl
  epsilons e he := by
    rcases mem_epsilons_star.mp he with hin | hentry | ⟨hexit, hback⟩
    · exact Or.inl hin
    · exact Or.inr (Or.inl hentry)
    · exact Or.inr (Or.inr ⟨hexit, Or.inl ⟨hback, fun _ hw ↦ hw⟩⟩)
  initial := rfl
  finals f hf := Or.inl ⟨List.mem_singleton.mp hf, .starNil⟩
  enter u v hu hv := .starCons ((hc.accepts u).mp hu) hv

theorem leads_hub (hc : c.Denotes base r) (h : (Regex.star r).Matches w) :
    (star base c).Leads (base + c.size) w := by
  -- the induction is on the match, whose pattern has to be a variable for that
  generalize hs : Regex.star r = s at h
  induction h with
  | starNil => exact .exit (List.mem_singleton_self _)
  | starCons hu _ _ ih =>
    obtain rfl := Regex.star.inj hs
    obtain ⟨i, hi, hleads⟩ := (hc.accepts _).mpr hu
    refine .slide (mem_epsilons_star.mpr (Or.inr (Or.inl ⟨rfl, hi⟩))) ?_
    refine Leads.append (F := c) (fun _ he ↦ he) (fun e he ↦ mem_epsilons_star.mpr (Or.inl he)) ?_
      hleads
    intro f hf
    exact .slide (mem_epsilons_star.mpr (Or.inr (Or.inr ⟨hf, rfl⟩))) (ih rfl)
  | _ => exact absurd hs (by simp)

theorem denotes_star (hc : c.Denotes base r) : (star base c).Denotes base (.star r) := by
  have hwraps := wraps_star hc
  refine ⟨hwraps.within hc.within, fun w ↦ ⟨hwraps.sound hc.within, fun h ↦ ?_⟩⟩
  exact ⟨_, List.mem_singleton_self _, leads_hub hc h⟩

theorem mem_epsilons_plus {e : Nat × Nat} : e ∈ (plus base c).epsilons ↔
    e ∈ c.epsilons ∨ (e.1 = base + c.size ∧ e.2 ∈ c.initial) ∨
      (e.1 ∈ c.finals ∧ e.2 ∈ c.initial) := by
  simp only [plus, List.mem_append, mem_link, List.mem_singleton, or_assoc]

theorem wraps_plus (hc : c.Denotes base r) :
    Wraps (plus base c) c base (Regex.plus r).Matches (Regex.star r).Matches where
  size := rfl
  reals := rfl
  epsilons e he := by
    rcases mem_epsilons_plus.mp he with hin | hentry | ⟨hexit, hentry⟩
    · exact Or.inl hin
    · exact Or.inr (Or.inl hentry)
    · have hrepeat : ∀ u v, c.Accepts u → (Regex.star r).Matches v →
          (Regex.star r).Matches (u ++ v) := fun u v hu hv ↦ .starCons ((hc.accepts u).mp hu) hv
      exact Or.inr (Or.inr ⟨hexit, Or.inr ⟨hentry, hrepeat⟩⟩)
  initial := rfl
  finals f hf := Or.inr ⟨hf, .starNil⟩
  enter u v hu hv := .plus ((hc.accepts u).mp hu) hv

/-- From an exit further repetitions can be read. -/
theorem leads_plus_of_mem_finals (hc : c.Denotes base r) (h : (Regex.star r).Matches w) :
    ∀ f ∈ c.finals, (plus base c).Leads f w := by
  generalize hs : Regex.star r = s at h
  induction h with
  | starNil => exact fun f hf ↦ .exit hf
  | starCons hu _ _ ih =>
    intro f hf
    obtain rfl := Regex.star.inj hs
    obtain ⟨i, hi, hleads⟩ := (hc.accepts _).mpr hu
    refine .slide (mem_epsilons_plus.mpr (Or.inr (Or.inr ⟨hf, hi⟩))) ?_
    exact Leads.append (F := c) (fun _ he ↦ he) (fun e he ↦ mem_epsilons_plus.mpr (Or.inl he))
      (ih rfl) hleads
  | _ => exact absurd hs (by simp)

theorem denotes_plus (hc : c.Denotes base r) : (plus base c).Denotes base (.plus r) := by
  have hwraps := wraps_plus hc
  refine ⟨hwraps.within hc.within, fun w ↦ ⟨hwraps.sound hc.within, fun h ↦ ?_⟩⟩
  obtain ⟨u, v, hu, hv, rfl⟩ := Regex.matches_plus.mp h
  obtain ⟨i, hi, hleads⟩ := (hc.accepts u).mpr hu
  have hentry : (base + c.size, i) ∈ (plus base c).epsilons :=
    mem_epsilons_plus.mpr (Or.inr (Or.inl ⟨rfl, hi⟩))
  refine ⟨_, List.mem_singleton_self _, .slide hentry ?_⟩
  exact Leads.append (F := c) (fun _ he ↦ he) (fun e he ↦ mem_epsilons_plus.mpr (Or.inl he))
    (leads_plus_of_mem_finals hc hv) hleads

theorem mem_epsilons_maybe {e : Nat × Nat} : e ∈ (maybe base c).epsilons ↔
    e ∈ c.epsilons ∨ (e.1 = base + c.size ∧ e.2 ∈ c.initial) := by
  simp only [maybe, List.mem_append, mem_link, List.mem_singleton]

theorem mem_finals_maybe {f : Nat} :
    f ∈ (maybe base c).finals ↔ f ∈ c.finals ∨ f = base + c.size := by
  simp only [maybe, List.mem_append, List.mem_singleton]

theorem wraps_maybe (hc : c.Denotes base r) :
    Wraps (maybe base c) c base (Regex.maybe r).Matches (· = []) where
  size := rfl
  reals := rfl
  epsilons e he := (mem_epsilons_maybe.mp he).imp_right Or.inl
  initial := rfl
  finals f hf := by
    rcases mem_finals_maybe.mp hf with hexit | hentry
    · exact Or.inr ⟨hexit, rfl⟩
    · exact Or.inl ⟨hentry, .maybeNil⟩
  enter u v hu hv := by
    rw [hv, List.append_nil]
    exact .maybe ((hc.accepts u).mp hu)

theorem denotes_maybe (hc : c.Denotes base r) : (maybe base c).Denotes base (.maybe r) := by
  have hwraps := wraps_maybe hc
  refine ⟨hwraps.within hc.within, fun w ↦ ⟨hwraps.sound hc.within, fun h ↦ ?_⟩⟩
  rcases Regex.matches_maybe.mp h with rfl | hw
  · exact ⟨_, List.mem_singleton_self _, .exit (mem_finals_maybe.mpr (Or.inr rfl))⟩
  · obtain ⟨i, hi, hleads⟩ := (hc.accepts w).mpr hw
    have hinside : (maybe base c).Leads i w :=
      Leads.mono (F := c) (fun _ he ↦ he) (fun e he ↦ mem_epsilons_maybe.mpr (Or.inl he))
        (fun f hf ↦ mem_finals_maybe.mpr (Or.inl hf)) hleads
    exact ⟨_, List.mem_singleton_self _,
      .slide (mem_epsilons_maybe.mpr (Or.inr ⟨rfl, hi⟩)) hinside⟩

/-! ### Two parts -/

/-- What belongs to the first of two neighbours does not belong to the second. -/
theorem Owns.disjoint (hp : p.Owns base i) : ¬ q.Owns (base + p.size) i :=
  fun hq ↦ Nat.lt_irrefl _ (Nat.lt_of_lt_of_le hp.2 hq.1)

/-- The fragment has two neighbours as its parts. What can be read from an exit of the first one is
in `rest`: there the way ends, or an edge leads to an entry of the second one. -/
structure Pairs (G p q : Fragment) (rest : List Nat → Prop) : Prop where
  size : G.size = p.size + q.size
  reals : G.reals = p.reals ++ q.reals
  epsilons : ∀ e ∈ G.epsilons, e ∈ p.epsilons ∨ e ∈ q.epsilons ∨
    (e.1 ∈ p.finals ∧ e.2 ∈ q.initial ∧ ∀ w, q.Accepts w → rest w)
  initial : ∀ i ∈ G.initial, i ∈ p.initial ∨ i ∈ q.initial
  finals : ∀ f ∈ G.finals, (f ∈ p.finals ∧ rest []) ∨ f ∈ q.finals

section Pairs

variable {rest : List Nat → Prop}

theorem Pairs.within (h : Pairs G p q rest) (hp : p.Within base) (hq : q.Within (base + p.size)) :
    G.Within base := by
  have hleft : ∀ {i}, p.Owns base i → G.Owns base i :=
    fun hi ↦ ⟨hi.1, by rw [h.size, ← Nat.add_assoc]; exact Nat.lt_add_right _ hi.2⟩
  have hright : ∀ {i}, q.Owns (base + p.size) i → G.Owns base i := fun hi ↦
    ⟨Nat.le_trans (Nat.le_add_right _ _) hi.1, by rw [h.size, ← Nat.add_assoc]; exact hi.2⟩
  refine ⟨?_, ?_, ?_, ?_⟩
  · intro e he
    rw [h.reals] at he
    rcases List.mem_append.mp he with hin | hin
    · exact (hp.reals e hin).imp hleft hleft
    · exact (hq.reals e hin).imp hright hright
  · intro e he
    rcases h.epsilons e he with hin | hin | ⟨hexit, hentry, _⟩
    · exact (hp.epsilons e hin).imp hleft hleft
    · exact (hq.epsilons e hin).imp hright hright
    · exact ⟨hleft (hp.finals _ hexit), hright (hq.initial _ hentry)⟩
  · intro i hi
    exact (h.initial i hi).elim (fun hin ↦ hleft (hp.initial i hin))
      fun hin ↦ hright (hq.initial i hin)
  · intro f hf
    exact (h.finals f hf).elim (fun hin ↦ hleft (hp.finals f hin.1))
      fun hin ↦ hright (hq.finals f hin)

/-- A way that starts in the first part goes through it, and no way leads back to it. -/
theorem Pairs.leads (h : Pairs G p q rest) (hp : p.Within base) (hq : q.Within (base + p.size))
    (hleads : G.Leads i w) : (∃ u v, p.Leads i u ∧ rest v ∧ w = u ++ v) ∨ q.Leads i w := by
  have hfirst : ∀ {t w}, p.Owns base t →
      (∃ u v, p.Leads t u ∧ rest v ∧ w = u ++ v) ∨ q.Leads t w →
        ∃ u v, p.Leads t u ∧ rest v ∧ w = u ++ v :=
    fun ht hor ↦ hor.resolve_right fun hw ↦ ht.disjoint (hq.owns_of_leads hw)
  have hsecond : ∀ {t w}, q.Owns (base + p.size) t →
      (∃ u v, p.Leads t u ∧ rest v ∧ w = u ++ v) ∨ q.Leads t w → q.Leads t w :=
    fun ht hor ↦ hor.resolve_left fun ⟨_, _, hu, _⟩ ↦ (hp.owns_of_leads hu).disjoint ht
  induction hleads with
  | exit hf =>
    rcases h.finals _ hf with ⟨hexit, hrest⟩ | hexit
    · exact Or.inl ⟨[], [], .exit hexit, hrest, rfl⟩
    · exact Or.inr (.exit hexit)
  | @slide i t w ht _ ih =>
    rcases h.epsilons _ ht with hin | hin | ⟨hexit, hentry, hrest⟩
    · obtain ⟨u, v, hu, hv, rfl⟩ := hfirst (hp.epsilons _ hin).2 ih
      exact Or.inl ⟨u, v, .slide hin hu, hv, rfl⟩
    · exact Or.inr (.slide hin (hsecond (hq.epsilons _ hin).2 ih))
    · have hw := hsecond (hq.initial _ hentry) ih
      exact Or.inl ⟨[], w, .exit hexit, hrest w ⟨t, hentry, hw⟩, rfl⟩
  | read he hcp _ ih =>
    rw [h.reals] at he
    rcases List.mem_append.mp he with hin | hin
    · obtain ⟨u, v, hu, hv, rfl⟩ := hfirst (hp.reals _ hin).2 ih
      exact Or.inl ⟨_, v, .read hin hcp hu, hv, rfl⟩
    · exact Or.inr (.read hin hcp (hsecond (hq.reals _ hin).2 ih))

theorem Pairs.leads_left (h : Pairs G p q rest) (hp : p.Within base)
    (hq : q.Within (base + p.size)) (hi : i ∈ p.initial) (hleads : G.Leads i w) :
    ∃ u v, p.Leads i u ∧ rest v ∧ w = u ++ v :=
  (h.leads hp hq hleads).resolve_right fun hw ↦ (hp.initial i hi).disjoint (hq.owns_of_leads hw)

theorem Pairs.leads_right (h : Pairs G p q rest) (hp : p.Within base)
    (hq : q.Within (base + p.size)) (hi : i ∈ q.initial) (hleads : G.Leads i w) : q.Leads i w :=
  (h.leads hp hq hleads).resolve_left fun ⟨_, _, hu, _⟩ ↦
    (hp.owns_of_leads hu).disjoint (hq.initial i hi)

end Pairs

/-! ### Parts one after the other -/

/-- Two neighbours with edges from the exits of the first to the entries of the second. -/
def joined (p q : Fragment) : Fragment where
  size := p.size + q.size
  reals := p.reals ++ q.reals
  epsilons := p.epsilons ++ q.epsilons ++ link p.finals q.initial
  initial := p.initial
  finals := q.finals

theorem mem_epsilons_joined {e : Nat × Nat} : e ∈ (joined p q).epsilons ↔
    e ∈ p.epsilons ∨ e ∈ q.epsilons ∨ (e.1 ∈ p.finals ∧ e.2 ∈ q.initial) := by
  simp only [joined, List.mem_append, mem_link, or_assoc]

theorem pairs_joined (p q : Fragment) : Pairs (joined p q) p q q.Accepts where
  size := rfl
  reals := rfl
  epsilons e he := by
    rcases mem_epsilons_joined.mp he with hin | hin | ⟨hexit, hentry⟩
    · exact Or.inl hin
    · exact Or.inr (Or.inl hin)
    · exact Or.inr (Or.inr ⟨hexit, hentry, fun _ hw ↦ hw⟩)
  initial _ hi := Or.inl hi
  finals _ hf := Or.inr hf

theorem accepts_joined (hp : p.Within base) (hq : q.Within (base + p.size)) :
    (joined p q).Accepts w ↔ ∃ u v, p.Accepts u ∧ q.Accepts v ∧ w = u ++ v := by
  constructor
  · intro ⟨i, hi, hleads⟩
    obtain ⟨u, v, hu, hv, rfl⟩ := (pairs_joined p q).leads_left hp hq hi hleads
    exact ⟨u, v, ⟨i, hi, hu⟩, hv, rfl⟩
  · intro ⟨u, v, ⟨i, hi, hu⟩, ⟨k, hk, hv⟩, hw⟩
    have hrest : (joined p q).Leads k v :=
      hv.mono (fun _ ↦ List.mem_append_right _)
        (fun _ he ↦ mem_epsilons_joined.mpr (Or.inr (Or.inl he))) fun _ hf ↦ hf
    refine ⟨i, hi, hw ▸ Leads.append (F := p) (fun _ he ↦ List.mem_append_left _ he)
      (fun _ he ↦ mem_epsilons_joined.mpr (Or.inl he)) (fun f hf ↦ ?_) hu⟩
    exact .slide (mem_epsilons_joined.mpr (Or.inr (Or.inr ⟨hf, hk⟩))) hrest

/-- Fragments one after the other stand for patterns one after the other. -/
inductive InTurn : Nat → List Fragment → List Regex → Prop where
  | nil (base : Nat) : InTurn base [] []
  | cons {base : Nat} {F : Fragment} {r : Regex} {Fs : List Fragment} {rs : List Regex} :
      F.Denotes base r → InTurn (base + F.size) Fs rs → InTurn base (F :: Fs) (r :: rs)

/-- Fragments with the same states and the same edges stand for the same. -/
theorem Denotes.congr (h : F.Denotes base r) (hsize : G.size = F.size) (hreals : G.reals = F.reals)
    (hepsilons : ∀ e, e ∈ G.epsilons ↔ e ∈ F.epsilons) (hinitial : G.initial = F.initial)
    (hfinals : G.finals = F.finals) : G.Denotes base r := by
  have howns : ∀ {i}, G.Owns base i ↔ F.Owns base i := by
    intro i
    rw [Owns, Owns, hsize]
  refine ⟨⟨?_, ?_, ?_, ?_⟩, fun w ↦ Iff.trans ?_ (h.accepts w)⟩
  · intro e he
    exact (h.within.reals e (hreals ▸ he)).imp howns.mpr howns.mpr
  · intro e he
    exact (h.within.epsilons e ((hepsilons e).mp he)).imp howns.mpr howns.mpr
  · intro i hi
    exact howns.mpr (h.within.initial i (hinitial ▸ hi))
  · intro i hi
    exact howns.mpr (h.within.finals i (hfinals ▸ hi))
  · have hforward : ∀ {i}, G.Leads i w → F.Leads i w :=
      Leads.mono (fun _ he ↦ hreals ▸ he) (fun e ↦ (hepsilons e).mp) fun _ hf ↦ hfinals ▸ hf
    have hback : ∀ {i}, F.Leads i w → G.Leads i w :=
      Leads.mono (fun _ he ↦ hreals ▸ he) (fun e ↦ (hepsilons e).mpr) fun _ hf ↦ hfinals ▸ hf
    rw [Accepts, Accepts, hinitial]
    exact ⟨fun ⟨i, hi, hl⟩ ↦ ⟨i, hi, hforward hl⟩, fun ⟨i, hi, hl⟩ ↦ ⟨i, hi, hback hl⟩⟩

theorem denotes_concat {Fs : List Fragment} {rs : List Regex} (h : InTurn base Fs rs)
    (hne : rs ≠ []) : (concat Fs).Denotes base (.concat rs) := by
  induction h with
  | nil => exact absurd rfl hne
  | @cons base F r Fs rs hF hrest ih =>
    cases hrest with
    | nil =>
      have hsingle : F.Denotes base (.concat [r]) := by
        refine ⟨hF.within, fun w ↦ (hF.accepts w).trans ?_⟩
        simp [Regex.matches_concat_cons]
      refine hsingle.congr ?_ ?_ ?_ rfl rfl
      · simp [concat]
      · simp [concat]
      · simp [concat, chainLinks]
    | @cons _ G s Gs ss hG hlast =>
      have htail := ih (List.cons_ne_nil _ _)
      have hpair : (joined F (concat (G :: Gs))).Denotes base (.concat (r :: s :: ss)) := by
        refine ⟨(pairs_joined _ _).within hF.within htail.within, fun w ↦ ?_⟩
        rw [accepts_joined hF.within htail.within, Regex.matches_concat_cons]
        simp only [hF.accepts, htail.accepts]
      refine hpair.congr ?_ ?_ ?_ rfl rfl
      · simp [concat, joined]
      · simp [concat, joined]
      · intro e
        simp only [concat, joined, chainLinks, List.flatMap_cons, List.mem_append, List.head?_cons,
          Option.map_some, Option.getD_some]
        grind

/-! ### Parts side by side -/

/-- Two neighbours without edges between them. -/
def beside (p q : Fragment) : Fragment where
  size := p.size + q.size
  reals := p.reals ++ q.reals
  epsilons := p.epsilons ++ q.epsilons
  initial := p.initial ++ q.initial
  finals := p.finals ++ q.finals

theorem alternate_cons (p : Fragment) (Fs : List Fragment) :
    alternate (p :: Fs) = beside p (alternate Fs) := by
  simp [alternate, beside]

theorem pairs_beside (p q : Fragment) : Pairs (beside p q) p q (· = []) where
  size := rfl
  reals := rfl
  epsilons _ he := (List.mem_append.mp he).imp_right Or.inl
  initial _ hi := List.mem_append.mp hi
  finals _ hf := (List.mem_append.mp hf).imp_left fun hin ↦ ⟨hin, rfl⟩

theorem accepts_beside (hp : p.Within base) (hq : q.Within (base + p.size)) :
    (beside p q).Accepts w ↔ p.Accepts w ∨ q.Accepts w := by
  constructor
  · intro ⟨i, hi, hleads⟩
    rcases List.mem_append.mp hi with hin | hin
    · obtain ⟨u, v, hu, rfl, rfl⟩ := (pairs_beside p q).leads_left hp hq hin hleads
      rw [List.append_nil]
      exact Or.inl ⟨i, hin, hu⟩
    · exact Or.inr ⟨i, hin, (pairs_beside p q).leads_right hp hq hin hleads⟩
  · intro h
    rcases h with ⟨i, hi, hw⟩ | ⟨i, hi, hw⟩
    · exact ⟨i, List.mem_append_left _ hi, hw.mono (fun _ ↦ List.mem_append_left _)
        (fun _ ↦ List.mem_append_left _) fun _ ↦ List.mem_append_left _⟩
    · exact ⟨i, List.mem_append_right _ hi, hw.mono (fun _ ↦ List.mem_append_right _)
        (fun _ ↦ List.mem_append_right _) fun _ ↦ List.mem_append_right _⟩

theorem denotes_alternate {Fs : List Fragment} {rs : List Regex} (h : InTurn base Fs rs) :
    (alternate Fs).Denotes base (.alternate rs) := by
  induction h with
  | nil base =>
    refine ⟨⟨?_, ?_, ?_, ?_⟩, fun w ↦ ?_⟩
    · exact fun e he ↦ absurd he List.not_mem_nil
    · exact fun e he ↦ absurd he List.not_mem_nil
    · exact fun i hi ↦ absurd hi List.not_mem_nil
    · exact fun i hi ↦ absurd hi List.not_mem_nil
    · rw [Regex.matches_alternate]
      constructor
      · exact fun ⟨_, hi, _⟩ ↦ absurd hi List.not_mem_nil
      · exact fun ⟨_, hr, _⟩ ↦ absurd hr List.not_mem_nil
  | cons hF _ ih =>
    rw [alternate_cons]
    refine ⟨(pairs_beside _ _).within hF.within ih.within, fun w ↦ ?_⟩
    rw [accepts_beside hF.within ih.within, hF.accepts, ih.accepts, Regex.matches_alternate,
      Regex.matches_alternate, List.exists_mem_cons_iff]

/-! ### Patterns -/

theorem inTurn_ofRegexes {rs : List Regex}
    (h : ∀ r ∈ rs, ∀ base, (ofRegex base r).Denotes base r) (base : Nat) :
    InTurn base (ofRegexes base rs) rs := by
  induction rs generalizing base with
  | nil => exact .nil base
  | cons r rs ih =>
    exact .cons (h r List.mem_cons_self base) (ih (fun s hs ↦ h s (List.mem_cons_of_mem r hs)) _)

end Fragment

end SignalRegex.Automaton

namespace SignalRegex.Regex

/-- Every sequence in the pattern has at least one part. -/
inductive Proper : Regex → Prop where
  | set (s : CharSet) : Proper (.set s)
  | star {r : Regex} : Proper r → Proper (.star r)
  | plus {r : Regex} : Proper r → Proper (.plus r)
  | maybe {r : Regex} : Proper r → Proper (.maybe r)
  | concat {rs : List Regex} : rs ≠ [] → (∀ r ∈ rs, Proper r) → Proper (.concat rs)
  | alternate {rs : List Regex} : (∀ r ∈ rs, Proper r) → Proper (.alternate rs)

theorem Proper.denotes {r : Regex} (h : r.Proper) (base : Nat) :
    (Automaton.Fragment.ofRegex base r).Denotes base r := by
  induction h generalizing base with
  | set s => exact Automaton.Fragment.denotes_leaf base s
  | star _ ih => exact Automaton.Fragment.denotes_star (ih base)
  | plus _ ih => exact Automaton.Fragment.denotes_plus (ih base)
  | maybe _ ih => exact Automaton.Fragment.denotes_maybe (ih base)
  | concat hne _ ih =>
    exact Automaton.Fragment.denotes_concat (Automaton.Fragment.inTurn_ofRegexes ih base) hne
  | alternate _ ih =>
    exact Automaton.Fragment.denotes_alternate (Automaton.Fragment.inTurn_ofRegexes ih base)

end SignalRegex.Regex

namespace SignalRegex.Automaton

namespace Fragment

/-- The automaton of a fragment whose states are numbered from zero on. -/
def toAutomaton (F : Fragment) : Automaton :=
  ofEdges F.size F.reals F.epsilons F.initial F.finals

variable {F : Fragment} {i f : Nat} {w : List Nat}

theorem leads_of_chain (hf : f ∈ F.toAutomaton.finals)
    (h : Chain F.toAutomaton.Reads F.toAutomaton.Slides i w f) : F.Leads i w := by
  induction h with
  | refl i => exact .exit (mem_finals_ofEdges.mp hf).1
  | slide hslide _ ih => exact .slide (slides_ofEdges.mp hslide).2.2 (ih hf)
  | read hread _ ih =>
    obtain ⟨_, _, e, he, rfl, rfl, hcp⟩ := reads_ofEdges.mp hread
    exact .read he hcp (ih hf)

theorem chain_of_leads (hF : F.Within 0) (h : F.Leads i w) :
    ∃ f ∈ F.toAutomaton.finals, Chain F.toAutomaton.Reads F.toAutomaton.Slides i w f := by
  have hlt : ∀ {k}, F.Owns 0 k → k < F.size := fun hk ↦ Nat.zero_add F.size ▸ hk.2
  induction h with
  | @exit i hi => exact ⟨i, mem_finals_ofEdges.mpr ⟨hi, hlt (hF.finals i hi)⟩, .refl i⟩
  | slide ht _ ih =>
    obtain ⟨f, hf, hchain⟩ := ih
    obtain ⟨hsource, htarget⟩ := hF.epsilons _ ht
    exact ⟨f, hf, .slide (slides_ofEdges.mpr ⟨hlt hsource, hlt htarget, ht⟩) hchain⟩
  | read he hcp _ ih =>
    obtain ⟨f, hf, hchain⟩ := ih
    obtain ⟨hsource, htarget⟩ := hF.reals _ he
    exact ⟨f, hf, .read (reads_ofEdges.mpr ⟨hlt hsource, hlt htarget, _, he, rfl, rfl, hcp⟩) hchain⟩

theorem acceptsBy_toAutomaton (hF : F.Within 0) :
    F.toAutomaton.AcceptsBy .member w ↔ F.Accepts w := by
  constructor
  · intro ⟨i, hi, f, hf, hchain⟩
    exact ⟨i, (mem_initial_ofEdges.mp hi).1, leads_of_chain hf hchain⟩
  · intro ⟨i, hi, hleads⟩
    obtain ⟨f, hf, hchain⟩ := chain_of_leads hF hleads
    have hlt : i < F.size := Nat.zero_add F.size ▸ (hF.initial i hi).2
    exact ⟨i, mem_initial_ofEdges.mpr ⟨hi, hlt⟩, f, hf, hchain⟩

end Fragment

/-- The automaton of a pattern accepts what the pattern matches. -/
theorem acceptsBy_ofRegex {r : Regex} {w : List Nat} (h : r.Proper) :
    (ofRegex r).AcceptsBy .member w ↔ r.Matches w := by
  have hdenotes := h.denotes 0
  exact (Fragment.acceptsBy_toAutomaton hdenotes.within).trans (hdenotes.accepts w)

end SignalRegex.Automaton
