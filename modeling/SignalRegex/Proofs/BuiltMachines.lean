import Mathlib.Data.List.Forall2
import SignalRegex.Proofs.MachineSessions

/-!
What a machine is built for, and what the checks are good for.

With a sorted list of shared subranges, halving finds a subrange exactly where it is in the list, so
the checks ask for no more and no less than tables whose numbers point inside
(`exists_build_iff_closed`). In whatever order the list is, a tap of a machine that was built holds
the very subrange of its signal (`forall₂_taps`), and an engine never stops at a number that points
outside.
-/

set_option autoImplicit false

namespace SignalRegex

namespace Program

variable {p : Program}

/-- Every state carries its own number, every other number in the tables points into its table, and
every subrange of a signal is in the shared list. -/
structure Closed (p : Program) : Prop where
  alphabet : p.alphabetSize = SignalRegex.alphabetSize
  index : ∀ (i : Nat) (s : State), p.states[i]? = some s → s.index = i
  source : ∀ s ∈ p.states, ∀ e ∈ s.incoming, e.source < p.states.length
  signal : ∀ s ∈ p.states, ∀ e ∈ s.incoming, ∀ id, e.condition.signal? = some id →
    id < p.signals.length
  accepting : ∀ q ∈ p.patterns, ∀ s ∈ q.accepting, s < p.states.length
  subrange : ∀ s ∈ p.signals, ∀ r ∈ s.subranges, r ∈ p.subranges

theorem getElem?_subranges_of_tap? {r : SubRange} {t : Nat}
    (h : tap? p.subranges.toArray r = some t) : p.subranges[t]? = some r := by
  rw [← List.getElem?_toArray]
  exact getElem?_of_tap? h

/-- What halving finds is in the list, in whatever order that is. -/
theorem Consistent.closed (h : p.Consistent) : p.Closed := by
  refine ⟨h.alphabet, h.index, h.source, h.signal, h.accepting, fun s hs r hr ↦ ?_⟩
  obtain ⟨t, ht⟩ := Option.isSome_iff_exists.mp (h.subrange s hs r hr)
  exact List.mem_of_getElem? (getElem?_subranges_of_tap? ht)

theorem Closed.consistent (h : p.Closed) (hsorted : SortedSubranges p.subranges) : p.Consistent :=
  ⟨h.alphabet, h.index, h.source, h.signal, h.accepting,
    fun s hs r hr ↦ isSome_tap? hsorted (h.subrange s hs r hr)⟩

theorem exists_build_iff_closed (hsorted : SortedSubranges p.subranges) :
    (∃ m, Machine.build p = .ok m) ↔ p.Closed := by
  constructor
  · rintro ⟨m, hbuild⟩
    exact (Machine.build_eq_ok_iff.mp hbuild).1.closed
  · intro h
    exact ⟨_, Machine.build_eq_ok_iff.mpr ⟨h.consistent hsorted, rfl⟩⟩

theorem forall₂_filterMap {α β : Type} {R : α → β → Prop} {f : α → Option β} {l : List α}
    (h : ∀ a ∈ l, ∃ b, f a = some b ∧ R a b) : List.Forall₂ R l (l.filterMap f) := by
  induction l with
  | nil => exact .nil
  | cons a l ih =>
    obtain ⟨b, hb, hR⟩ := h a List.mem_cons_self
    rw [List.filterMap_cons_some hb]
    exact .cons hR (ih fun c hc ↦ h c (List.mem_cons_of_mem _ hc))

/-- Each signal has a tap for each of its subranges, and the tap is a place of that subrange. -/
theorem forall₂_taps (hp : p.Consistent) : List.Forall₂ (fun s taps ↦
    List.Forall₂ (fun r t ↦ p.subranges[t]? = some r) s.subranges taps) p.signals p.taps := by
  rw [taps, List.forall₂_map_right_iff, List.forall₂_same]
  intro s hs
  refine forall₂_filterMap fun r hr ↦ ?_
  obtain ⟨t, ht⟩ := Option.isSome_iff_exists.mp (hp.subrange s hs r hr)
  exact ⟨t, ht, getElem?_subranges_of_tap? ht⟩

end Program

namespace Machine

/-- For a program whose shared subranges are sorted, a machine is built exactly where the tables are
closed. For whatever program it was built, it can be used without end: no table is ever read
outside, and every tap holds the subrange of its signal. -/
theorem build_iff_closed_and_never_outside (p : Program) :
    (SortedSubranges p.subranges → ((∃ m, build p = .ok m) ↔ p.Closed)) ∧
    ∀ m, build p = .ok m → ∀ ops : List Operation,
      ∃ e, (Engine.ofMachine m).after? ops = some e ∧ e.toMachine = m.after ops ∧
        (Engine.ofMachine m).session? ops = some (m.session ops) ∧
        List.Forall₂ (fun s taps ↦
          List.Forall₂ (fun r t ↦ p.subranges[t]? = some r) s.subranges taps) p.signals e.taps := by
  refine ⟨Program.exists_build_iff_closed, fun m hbuild ops ↦ ?_⟩
  have hfits := Engine.fits_ofMachine hbuild
  obtain ⟨e, he, -, hmachine⟩ := Engine.follows_after? hfits ops
  refine ⟨e, he, hmachine, Engine.session?_eq hfits ops, ?_⟩
  obtain ⟨hp, rfl⟩ := build_eq_ok_iff.mp hbuild
  have htaps : e.taps = p.taps := by
    rw [hmachine]
    exact (program_after _ ops).2
  rw [htaps]
  exact Program.forall₂_taps hp

/-- A list of subranges out of order, in which halving still finds the one that is read. -/
def unsortedProgram : Program :=
  { letterProgram with subranges := [⟨2, 0, 0⟩, ⟨1, 33, 33⟩] }

/-- The program is not sorted and a machine is built for it all the same. It takes a number that is
no code point, and a text that is cut off. -/
theorem never_outside_unsortedProgram : ¬ SortedSubranges unsortedProgram.subranges ∧
    ∃ m, build unsortedProgram = .ok m ∧ ∃ e, (Engine.ofMachine m).after?
      [.feedCodePoint 0xFFFFFFFF, .run [0x61], .feedBytes [0x61, 0xE2], .finish] = some e ∧
        List.Forall₂ (fun s taps ↦ List.Forall₂
          (fun r t ↦ unsortedProgram.subranges[t]? = some r) s.subranges taps)
          unsortedProgram.signals e.taps := by
  have hconsistent : unsortedProgram.Consistent :=
    Program.faults_eq_nil_iff.mp (by decide +kernel)
  have hbuild := build_eq_ok_iff.mpr ⟨hconsistent, rfl⟩
  obtain ⟨e, he, -, -, htaps⟩ := (build_iff_closed_and_never_outside unsortedProgram).2 _ hbuild
    [.feedCodePoint 0xFFFFFFFF, .run [0x61], .feedBytes [0x61, 0xE2], .finish]
  refine ⟨fun hsorted ↦ ?_, _, hbuild, e, he, htaps⟩
  have hle := List.rel_of_pairwise_cons hsorted (List.mem_singleton_self _)
  exact absurd hle (by decide)

end Machine

end SignalRegex
