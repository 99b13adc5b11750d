import SignalRegex.Machine.Engine
import SignalRegex.Proofs.MachineRuns

/-!
Engines go through what machines go through.

The arrays of an engine have as many entries as the tables they are filled from, and this lasts
(`Fits`). A consistent program has no number that points outside of such an array, so a code point
is always taken, every entry of the arrays is written before it is read, and the machine inside the
engine takes its step (`follows_step?`). The same holds for every operation and so for sessions
(`follows_after?`, `session?_eq`): what earlier operations left in the arrays is never seen.
-/

set_option autoImplicit false

namespace SignalRegex

/-! ### Reading and writing tables -/

theorem anyM_eq_some {α : Type} {l : List α} {f : α → Option Bool} {g : α → Bool}
    (h : ∀ a ∈ l, f a = some (g a)) : l.anyM f = some (l.any g) := by
  induction l with
  | nil => rfl
  | cons a l ih =>
    rw [List.anyM, h a List.mem_cons_self, List.any_cons]
    have hrest := ih fun b hb ↦ h b (List.mem_cons_of_mem _ hb)
    cases g a with
    | true => rfl
    | false => exact hrest

theorem overwrite_eq_some {α : Type} {value? : α → Option Bool} {value : α → Bool}
    {old : List Bool} {items : List α} (hlength : old.length = items.length)
    (h : ∀ a ∈ items, value? a = some (value a)) :
    overwrite value? old items = some (items.map value) := by
  induction items generalizing old with
  | nil =>
    obtain rfl := List.eq_nil_of_length_eq_zero hlength
    rfl
  | cons a items ih =>
    obtain ⟨b, old, rfl⟩ := List.exists_cons_of_length_eq_add_one hlength
    have hrest := ih (Nat.succ.inj hlength) fun b hb ↦ h b (List.mem_cons_of_mem _ hb)
    rw [overwrite, h a List.mem_cons_self, hrest]
    rfl

theorem getElem?_eq_some_getD {values : Array Bool} {i : Nat} (h : i < values.size) :
    values[i]? = some (values.getD i false) := by
  rw [Array.getD_eq_getD_getElem?, Array.getElem?_eq_getElem h]
  rfl

theorem Condition.eval?_eq_some {c : Condition} {values : Array Bool}
    (h : ∀ id, c.signal? = some id → id < values.size) :
    c.eval? values = some (c.eval values) := by
  cases c with
  | never => rfl
  | always => rfl
  | signal id negated =>
    rw [eval?, getElem?_eq_some_getD (h id rfl)]
    rfl

namespace Engine

theorem fill?_eq_some {α : Type} {buffer : Array Bool} {items : List α}
    {value? : α → Option Bool} {value : α → Bool} (hsize : buffer.size = items.length)
    (h : ∀ a ∈ items, value? a = some (value a)) :
    fill? buffer items value? = some (items.map value).toArray := by
  rw [fill?, overwrite_eq_some (Array.length_toList.trans hsize) h]
  rfl

/-! ### Arrays that fit the tables -/

/-- The program is consistent, the taps are its own, and every array has an entry for each item of
the table it is filled from. What the entries are does not matter. -/
structure Fits (e : Engine) : Prop where
  consistent : e.program.Consistent
  taps : e.taps = e.program.taps
  live : e.live.size = e.program.states.length
  next : e.next.size = e.program.states.length
  signals : e.signals.size = e.program.signals.length
  subranges : e.subranges.size = e.program.subranges.length

/-- The engine went on, its arrays fit, and the machine inside it is the given one. -/
def Follows (r : Option Engine) (m : Machine) : Prop :=
  ∃ e, r = some e ∧ e.Fits ∧ e.toMachine = m

variable {p : Program} {m : Machine} {e : Engine}

theorem fits_ofMachine (hbuild : Machine.build p = .ok m) : (ofMachine m).Fits := by
  obtain ⟨hp, rfl⟩ := Machine.build_eq_ok_iff.mp hbuild
  refine ⟨hp, rfl, ?_, ?_, ?_, ?_⟩
  · simp [ofMachine, Program.initialVector]
  · simp [ofMachine, Program.initialVector]
  · simp [ofMachine, Program.taps]
  · simp [ofMachine]

theorem Fits.reset (h : e.Fits) : e.reset.Fits := by
  refine ⟨h.consistent, h.taps, ?_, h.next, h.signals, h.subranges⟩
  simp [Engine.reset, Machine.reset, Program.initialVector]

theorem tap_lt {taps : List Nat} (htaps : taps ∈ p.taps) {t : Nat} (ht : t ∈ taps) :
    t < p.subranges.length := by
  obtain ⟨s, _, rfl⟩ := List.mem_map.mp htaps
  obtain ⟨r, _, hr⟩ := List.mem_filterMap.mp ht
  have hfound := getElem?_of_tap? hr
  rw [List.getElem?_toArray] at hfound
  exact (List.getElem?_eq_some_iff.mp hfound).1

/-! ### One code point -/

theorem testSubranges?_eq (h : e.Fits) (cp : Nat) :
    e.testSubranges? cp = some (e.program.subranges.toArray.map (·.contains cp)) := by
  rw [testSubranges?, fill?_eq_some h.subranges fun _ _ ↦ rfl, List.map_toArray]

/-- The taps of a signal are places of subranges, whose values have all been written. -/
theorem joinSubranges?_eq (h : e.Fits) (cp : Nat) :
    e.joinSubranges? (e.program.subranges.toArray.map (·.contains cp)) =
      some (e.signalValues cp) := by
  refine fill?_eq_some (by rw [h.signals, h.taps, Program.taps, List.length_map]) ?_
  intro taps htaps
  refine anyM_eq_some fun t ht ↦ getElem?_eq_some_getD ?_
  rw [Array.size_map, List.size_toArray]
  exact tap_lt (h.taps ▸ htaps) ht

theorem size_signalValues (h : e.Fits) (cp : Nat) :
    (e.signalValues cp).size = e.program.signals.length := by
  rw [Machine.signalValues, h.taps, Program.taps, List.size_toArray, List.length_map,
    List.length_map]

/-- The source of an edge is a state and its condition reads a signal that there is. -/
theorem advance?_eq (h : e.Fits) (cp : Nat) :
    e.advance? (e.signalValues cp) = some (e.toMachine.step cp).live := by
  refine fill?_eq_some h.next fun s hs ↦ anyM_eq_some fun edge hedge ↦ ?_
  have hsource : edge.source < e.live.size := h.live ▸ h.consistent.source s hs edge hedge
  have hcondition : edge.condition.eval? (e.signalValues cp) =
      some (edge.condition.eval (e.signalValues cp)) := by
    refine Condition.eval?_eq_some fun id hid ↦ ?_
    rw [size_signalValues h]
    exact h.consistent.signal s hs edge hedge id hid
  rw [getElem?_eq_some_getD hsource]
  cases e.live.getD edge.source false with
  | true => exact hcondition
  | false => rfl

/-- A code point is taken, and every array that it fills is filled from one end to the other. -/
theorem follows_step? (h : e.Fits) (cp : Nat) : Follows (e.step? cp) (e.toMachine.step cp) := by
  refine ⟨{ e with
    toMachine := e.toMachine.step cp
    next := e.live
    signals := e.signalValues cp
    subranges := e.program.subranges.toArray.map (·.contains cp) }, ?_, ?_, rfl⟩
  · simp only [step?, Option.bind_eq_bind, testSubranges?_eq h, Option.bind_some,
      joinSubranges?_eq h, advance?_eq h]
    rfl
  · refine ⟨h.consistent, h.taps, ?_, h.live, size_signalValues h cp, ?_⟩
    · simp [Machine.step]
    · simp [Machine.step]

/-! ### Operations -/

theorem follows_feed? (h : e.Fits) (byte : UInt8) :
    Follows (e.feed? byte) (e.toMachine.feed byte) := by
  have hdecoder : Fits { e with decoder := (e.decoder.push byte).1 } :=
    ⟨h.consistent, h.taps, h.live, h.next, h.signals, h.subranges⟩
  unfold feed? Machine.feed
  dsimp only
  cases hout : (e.decoder.push byte).2 with
  | none => exact ⟨_, rfl, hdecoder, rfl⟩
  | some cp => exact follows_step? hdecoder cp

theorem follows_feedBytes? (h : e.Fits) (bytes : List UInt8) :
    Follows (e.feedBytes? bytes) (e.toMachine.feedBytes bytes) := by
  induction bytes generalizing e with
  | nil => exact ⟨e, rfl, h, rfl⟩
  | cons byte bytes ih =>
    obtain ⟨k, hk, hfits, hmachine⟩ := follows_feed? h byte
    have hrest := ih hfits
    rw [hmachine] at hrest
    rw [feedBytes?, List.foldlM_cons, hk]
    exact hrest

theorem result?_eq (h : e.Fits) : e.result? = some e.result := by
  have haccepted : (e.program.patterns.mapM fun q ↦ q.accepting.anyM fun s ↦ e.live[s]?) =
      some e.result.accepted := by
    refine mapM_eq_some_iff.mpr (List.forall₂_map_right_iff.mpr (List.forall₂_same.mpr ?_))
    intro q hq
    refine anyM_eq_some fun s hs ↦ getElem?_eq_some_getD ?_
    rw [h.live]
    exact h.consistent.accepting q hq s hs
  rw [result?, haccepted]
  rfl

theorem finish?_eq (h : e.Fits) : e.finish? = some (e.reset, e.result) := by
  rw [finish?, result?_eq h]
  rfl

/-- A whole text is taken, and the engine answers like its machine. -/
theorem run?_eq (h : e.Fits) (bytes : List UInt8) :
    ∃ k, e.run? bytes = some (k, (e.toMachine.run bytes).2) ∧ k.Fits ∧
      k.toMachine = (e.toMachine.run bytes).1 := by
  obtain ⟨k, hk, hfits, hmachine⟩ := follows_feedBytes? h.reset bytes
  refine ⟨k.reset, ?_, hfits.reset, ?_⟩
  · rw [run?, hk]
    refine (finish?_eq hfits).trans ?_
    rw [hmachine]
    rfl
  · change k.toMachine.reset = _
    rw [hmachine]
    rfl

/-- Every operation is carried out, with the answer of the machine. -/
theorem perform?_eq (h : e.Fits) (op : Operation) :
    ∃ k, e.perform? op = some (k, (e.toMachine.perform op).2) ∧ k.Fits ∧
      k.toMachine = (e.toMachine.perform op).1 := by
  cases op with
  | feed byte =>
    obtain ⟨k, hk, hfollows⟩ := follows_feed? h byte
    exact ⟨k, by rw [perform?, hk]; rfl, hfollows⟩
  | feedBytes bytes =>
    obtain ⟨k, hk, hfollows⟩ := follows_feedBytes? h bytes
    exact ⟨k, by rw [perform?, hk]; rfl, hfollows⟩
  | feedCodePoint cp =>
    obtain ⟨k, hk, hfollows⟩ := follows_step? h cp
    exact ⟨k, by rw [perform?, hk]; rfl, hfollows⟩
  | finish => exact ⟨e.reset, by rw [perform?, finish?_eq h]; rfl, h.reset, rfl⟩
  | run bytes =>
    obtain ⟨k, hk, hfollows⟩ := run?_eq h bytes
    exact ⟨k, by rw [perform?, hk]; rfl, hfollows⟩
  | runText text =>
    obtain ⟨k, hk, hfollows⟩ := run?_eq h (encodeText text)
    exact ⟨k, by rw [perform?, hk]; rfl, hfollows⟩

/-! ### Sessions -/

theorem follows_after? (h : e.Fits) (ops : List Operation) :
    Follows (e.after? ops) (e.toMachine.after ops) := by
  induction ops generalizing e with
  | nil => exact ⟨e, rfl, h, rfl⟩
  | cons op ops ih =>
    obtain ⟨k, hk, hfits, hmachine⟩ := perform?_eq h op
    have hrest := ih hfits
    rw [hmachine] at hrest
    rw [after?, List.foldlM_cons, hk]
    exact hrest

theorem observations?_eq (h : e.Fits) (ops : List Operation) :
    e.observations? ops = some (e.observations ops) := by
  induction ops generalizing e with
  | nil => rfl
  | cons op ops ih =>
    obtain ⟨k, hk, hfits, hmachine⟩ := perform?_eq h op
    have hrest := ih hfits
    rw [hmachine] at hrest
    simp only [observations?, hk, Option.bind_eq_bind, Option.bind_some, hrest, hmachine]
    rfl

/-- Whatever its arrays hold, an engine shows what its machine shows. -/
theorem session?_eq (h : e.Fits) (ops : List Operation) :
    e.session? ops = some (e.session ops) := by
  rw [session?, observations?_eq h]
  rfl

end Engine

end SignalRegex
