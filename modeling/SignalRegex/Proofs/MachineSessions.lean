import SignalRegex.Proofs.DecodedSequences
import SignalRegex.Proofs.EngineRuns

/-!
A machine remembers nothing of the texts before, and does not notice how a text is cut.

No operation changes the program or the taps, so at the end of a text a machine is again the one
that was built (`perform_of_endsText`) and follows the runs of the next text from their start. Bytes
are taken as the code points they complete (`feedBytes_eq`), and the bytes of a text complete its
characters.
-/

set_option autoImplicit false

namespace SignalRegex.Machine

variable {p : Program} {m k : Machine}

/-! ### What operations leave as it is -/

theorem program_feed (m : Machine) (byte : UInt8) :
    (m.feed byte).program = m.program ∧ (m.feed byte).taps = m.taps := by
  unfold feed
  dsimp only
  split
  · exact ⟨rfl, rfl⟩
  · exact ⟨rfl, rfl⟩

theorem program_feedBytes (m : Machine) (bytes : List UInt8) :
    (m.feedBytes bytes).program = m.program ∧ (m.feedBytes bytes).taps = m.taps := by
  induction bytes generalizing m with
  | nil => exact ⟨rfl, rfl⟩
  | cons byte bytes ih =>
    have hfeed := program_feed m byte
    have hrest := ih (m.feed byte)
    exact ⟨hrest.1.trans hfeed.1, hrest.2.trans hfeed.2⟩

theorem program_perform (m : Machine) (op : Operation) :
    (m.perform op).1.program = m.program ∧ (m.perform op).1.taps = m.taps := by
  cases op with
  | feed byte => exact program_feed m byte
  | feedBytes bytes => exact program_feedBytes m bytes
  | feedCodePoint cp => exact ⟨rfl, rfl⟩
  | finish => exact ⟨rfl, rfl⟩
  | run bytes => exact program_feedBytes m.reset bytes
  | runText text => exact program_feedBytes m.reset (encodeText text)

theorem program_after (m : Machine) (ops : List Operation) :
    (m.after ops).program = m.program ∧ (m.after ops).taps = m.taps := by
  induction ops generalizing m with
  | nil => exact ⟨rfl, rfl⟩
  | cons op ops ih =>
    have hfirst := program_perform m op
    have hrest := ih (m.perform op).1
    exact ⟨hrest.1.trans hfirst.1, hrest.2.trans hfirst.2⟩

/-- A machine with the program and the taps of one that was built becomes that machine when it is
reset. -/
theorem reset_eq_built (hbuild : build p = .ok m) (hprogram : k.program = m.program)
    (htaps : k.taps = m.taps) : k.reset = m := by
  obtain ⟨-, rfl⟩ := build_eq_ok_iff.mp hbuild
  rw [reset, hprogram, htaps]

theorem reset_after (hbuild : build p = .ok m) (ops : List Operation) :
    (m.after ops).reset = m :=
  reset_eq_built hbuild (program_after m ops).1 (program_after m ops).2

/-- At the end of a text a machine is the one that was built. -/
theorem perform_of_endsText (hbuild : build p = .ok m) (history : List Operation) {op : Operation}
    (hop : op.endsText = true) : ((m.after history).perform op).1 = m := by
  have hreset := reset_after hbuild history
  have hrun (bytes : List UInt8) : ((m.after history).run bytes).1 = m := by
    have hbytes := program_feedBytes (m.after history).reset bytes
    rw [hreset] at hbytes
    rw [run, hreset]
    exact reset_eq_built hbuild hbytes.1 hbytes.2
  cases op with
  | finish => exact hreset
  | run bytes => exact hrun bytes
  | runText text => exact hrun (encodeText text)
  | feed byte => cases hop
  | feedBytes bytes => cases hop
  | feedCodePoint cp => cases hop

/-- A machine that has not been used, or last to end a text, is the one that was built. -/
theorem after_eq_built (hbuild : build p = .ok m) {history : List Operation}
    (hended : ∀ op ∈ history.getLast?, op.endsText = true) : m.after history = m := by
  rcases List.eq_nil_or_concat history with rfl | ⟨earlier, op, rfl⟩
  · rfl
  · have hop : op.endsText = true := hended op (by simp)
    rw [List.concat_eq_append, after, List.foldl_append]
    exact perform_of_endsText hbuild earlier hop

/-! ### Live states and runs -/

theorem after_append_feedCodePoint (m : Machine) (history : List Operation) (w : List Nat) :
    m.after (history ++ w.map .feedCodePoint) = w.foldl step (m.after history) := by
  rw [after, List.foldl_append, List.foldl_map]
  rfl

/-- A machine that was just built or has just ended a text, fed any code points, has live exactly
the states at the end of runs, and answers for every pattern whether one of its accepting states is
live. So does the engine that went through the same with its arrays. -/
theorem liveStates_eq_run_ends (hbuild : build p = .ok m) {history : List Operation}
    (hended : ∀ op ∈ history.getLast?, op.endsText = true) (w : List Nat) :
    (∀ q, q ∈ (w.foldl step (m.after history)).liveStates ↔ p.Run w q) ∧
      (w.foldl step (m.after history)).finish.2.accepted.length = p.patterns.length ∧
      (∀ (i : Nat) (pattern : Program.Pattern), p.patterns[i]? = some pattern →
        ∃ b, (w.foldl step (m.after history)).finish.2.accepted[i]? = some b ∧
          (b = true ↔
            ∃ s ∈ pattern.accepting, s ∈ (w.foldl step (m.after history)).liveStates)) ∧
      ∃ e ended, (Engine.ofMachine m).after? (history ++ w.map .feedCodePoint) = some e ∧
        e.liveStates = (w.foldl step (m.after history)).liveStates ∧
        e.finish? = some (ended, (w.foldl step (m.after history)).finish.2) := by
  have hconsistent : p.Consistent := (build_eq_ok_iff.mp hbuild).1
  have hengine := Engine.follows_after? (Engine.fits_ofMachine hbuild)
    (history ++ w.map .feedCodePoint)
  obtain ⟨e, he, hfits, hmachine⟩ := hengine
  have hmachine : e.toMachine = w.foldl step (m.after history) :=
    hmachine.trans (after_append_feedCodePoint m history w)
  rw [← hmachine]
  have htracks : Tracks p e.toMachine w := by
    rw [hmachine, after_eq_built hbuild hended]
    exact tracks_foldl_step hconsistent (tracks_build hbuild) w
  have hlive (q : Nat) : q ∈ e.liveStates ↔ p.Run w q := by
    rw [mem_liveStates, htracks.live]
  refine ⟨hlive, length_accepted_result htracks, fun i pattern hi ↦ ?_,
    e, _, he, rfl, Engine.finish?_eq hfits⟩
  obtain ⟨b, hb, hmatches⟩ := accepted_result htracks hi
  refine ⟨b, hb, hmatches.trans ?_⟩
  simp only [hlive]
  rfl

/-- One state that is live at the start, and one that an `a` leads to and that anything but an `a`
keeps live. -/
def letterProgram : Program where
  name := "letter"
  states := [⟨0, true, []⟩, ⟨1, false, [⟨0, .signal 0 false⟩, ⟨1, .signal 0 true⟩]⟩]
  patterns := [⟨"a", [1]⟩]
  signals := [⟨.empty, [⟨1, 33, 33⟩]⟩]
  subranges := [⟨1, 33, 33⟩]
  alphabetSize := SignalRegex.alphabetSize

/-- After a text that ended in the middle of a sequence of bytes, the second state of the program is
live behind an `a`, and then the pattern is matched. -/
theorem liveStates_letterProgram : ∃ m, build letterProgram = .ok m ∧
    1 ∈ ([0x61].foldl step (m.after [.feedBytes [0x61, 0xE2], .finish])).liveStates ∧
      ([0x61].foldl step (m.after [.feedBytes [0x61, 0xE2], .finish])).finish.2.accepted[0]? =
        some true := by
  have hconsistent : letterProgram.Consistent :=
    Program.faults_eq_nil_iff.mp (by decide +kernel)
  have hbuild := build_eq_ok_iff.mpr ⟨hconsistent, rfl⟩
  have hholds : (Condition.signal 0 false).HoldsAt letterProgram.signals 0x61 :=
    ⟨fun _ ↦ rfl, fun _ ↦ ⟨_, rfl, by decide⟩⟩
  have hrun : letterProgram.Run ([] ++ [0x61]) 1 :=
    .step rfl List.mem_cons_self hholds (.initial rfl rfl)
  have hended : ∀ op ∈ [Operation.feedBytes [0x61, 0xE2], .finish].getLast?,
      op.endsText = true := by decide
  obtain ⟨hlive, -, haccepted, -⟩ := liveStates_eq_run_ends hbuild hended [0x61]
  obtain ⟨b, hb, hmatch⟩ := haccepted 0 _ rfl
  have hend := (hlive 1).mpr hrun
  have htrue : b = true := hmatch.mpr ⟨1, List.mem_cons_self, hend⟩
  exact ⟨_, hbuild, hend, htrue ▸ hb⟩

/-! ### Bytes and code points -/

/-- The same machine with another decoder. -/
def withDecoder (m : Machine) (d : Decoder) : Machine :=
  { m with decoder := d }

theorem foldl_step_withDecoder (m : Machine) (d : Decoder) (cps : List Nat) :
    cps.foldl step (m.withDecoder d) = (cps.foldl step m).withDecoder d := by
  induction cps generalizing m with
  | nil => rfl
  | cons cp cps ih => exact ih (m.step cp)

theorem feed_eq (m : Machine) (byte : UInt8) : m.feed byte =
    ((m.decoder.push byte).2.toList.foldl step m).withDecoder (m.decoder.push byte).1 := by
  unfold feed
  dsimp only
  cases (m.decoder.push byte).2 with
  | none => rfl
  | some cp => rfl

/-- Bytes are taken as the code points that they complete. -/
theorem feedBytes_eq (m : Machine) (bytes : List UInt8) : m.feedBytes bytes =
    ((m.decoder.pushAll bytes).2.foldl step m).withDecoder (m.decoder.pushAll bytes).1 := by
  induction bytes generalizing m with
  | nil => rfl
  | cons byte bytes ih =>
    have hrest := ih (m.feed byte)
    rw [decoder_feed, feed_eq, foldl_step_withDecoder, ← List.foldl_append, ← feed_eq] at hrest
    exact hrest

theorem feedBytes_append (m : Machine) (xs ys : List UInt8) :
    m.feedBytes (xs ++ ys) = (m.feedBytes xs).feedBytes ys :=
  List.foldl_append

theorem decoder_foldl_step (m : Machine) (cps : List Nat) :
    (cps.foldl step m).decoder = m.decoder := by
  induction cps generalizing m with
  | nil => rfl
  | cons cp cps ih => exact ih (m.step cp)

/-- The bytes of a text lead to the answer that its characters lead to. -/
theorem result_feedBytes_encodeText (hstart : m.decoder = .start) (text : String) :
    (m.feedBytes (encodeText text)).result =
      ((text.toList.map Char.toNat).foldl step m).result := by
  obtain ⟨hwell, hread⟩ := Decoder.sequences_iff.mp (Utf8.sequences_encodeText text)
  have hidle : ((text.toList.map Char.toNat).foldl step m).decoder.malformed = false := by
    rw [decoder_foldl_step, hstart]
    rfl
  rw [feedBytes_eq, hstart, hread]
  exact congrArg (MatchResult.mk _) (hwell.trans hidle.symm)

/-! ### Sessions -/

/-- Whatever a machine went through, it answers for a text like the machine that was built, and when
a text has ended it shows what that machine shows. Bytes can be fed in any pieces, and a text can be
given as bytes or as code points. An engine that goes through the same shows the same, whatever is
left in its arrays. -/
theorem session_after_history (hbuild : build p = .ok m) (history : List Operation) :
    (∀ bytes, ((m.after history).run bytes).2 = (m.run bytes).2) ∧
    (∀ op : Operation, op.endsText = true → ∀ further,
      ((m.after history).perform op).1.session further = m.session further) ∧
    (∀ xs ys further, ((m.after history).feedBytes (xs ++ ys)).session further =
      (((m.after history).feedBytes xs).feedBytes ys).session further) ∧
    (∀ text : String, ((m.after history).runText text).2 =
      ((text.toList.map Char.toNat).foldl step m).finish.2) ∧
    ∃ e, (Engine.ofMachine m).after? history = some e ∧
      ∀ further, e.session? further = some ((m.after history).session further) := by
  have hreset := reset_after hbuild history
  have hfresh : m.reset = m := reset_eq_built hbuild rfl rfl
  have hstart : m.decoder = .start := by
    obtain ⟨-, rfl⟩ := build_eq_ok_iff.mp hbuild
    rfl
  refine ⟨fun bytes ↦ ?_, fun op hop further ↦ ?_, fun xs ys further ↦ ?_, fun text ↦ ?_, ?_⟩
  · rw [run, run, hreset, hfresh]
  · rw [perform_of_endsText hbuild history hop]
  · rw [feedBytes_append]
  · rw [runText, run, hreset]
    exact result_feedBytes_encodeText hstart text
  · obtain ⟨e, he, hfits, hmachine⟩ := Engine.follows_after? (Engine.fits_ofMachine hbuild) history
    exact ⟨e, he, fun further ↦ hmachine ▸ Engine.session?_eq hfits further⟩

/-- In the middle of a text and of a sequence of bytes, the machine still matches the text `a`, and
is then as good as new. -/
theorem session_after_cut_text : ∃ m, build letterProgram = .ok m ∧
    ((m.after [.feedCodePoint 0x61, .feed 0xE2]).runText "a").2 = ⟨[true], false⟩ ∧
      ((m.after [.feedCodePoint 0x61, .feed 0xE2]).perform .finish).1.session [.feed 0x61] =
        [⟨[0], 0, none⟩, ⟨[1], 1, none⟩] := by
  have hconsistent : letterProgram.Consistent :=
    Program.faults_eq_nil_iff.mp (by decide +kernel)
  have hbuild := build_eq_ok_iff.mpr ⟨hconsistent, rfl⟩
  obtain ⟨-, hsession, -, htext, -⟩ :=
    session_after_history hbuild [.feedCodePoint 0x61, .feed 0xE2]
  refine ⟨_, hbuild, (htext "a").trans ?_, (hsession .finish rfl [.feed 0x61]).trans ?_⟩
  · decide +kernel
  · decide +kernel

end SignalRegex.Machine
