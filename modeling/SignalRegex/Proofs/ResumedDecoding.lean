import SignalRegex.Proofs.DecodedSequences

/-!
Decoding goes on behind bytes that are cut off.

Two decoders that wait for the same bytes of the same code point go on in the same way, and only the
error that one of them remembers tells them apart (`Alike.pushAll`). A byte that is no continuation
puts every decoder next to one that starts a text there, and what is cut off in front of it is
remembered at that byte, as it would be at the end of a text (`alike_push_start`).
-/

set_option autoImplicit false

namespace SignalRegex

/-- The byte goes on with a sequence, and starts none. -/
def Utf8.IsContinuation (byte : UInt8) : Prop :=
  0x80 ≤ byte.toNat ∧ byte.toNat < 0xC0

namespace Decoder

open Utf8 (IsContinuation)

variable {d e : Decoder} {flag : Bool} {byte : UInt8} {bytes : List UInt8}

/-- The decoders wait for the same bytes of the same code point, and the first one remembers an
error if the second one does or the flag is set. -/
structure Alike (flag : Bool) (d e : Decoder) : Prop where
  pending : d.pending = e.pending
  codePoint : d.pending ≠ 0 → d.codePoint = e.codePoint
  error : d.error = (flag || e.error)

/-- A sequence that is cut off is an error at the byte that cuts it off as much as at the end of a
text. -/
theorem error_interrupt (d : Decoder) : d.interrupt.error = d.malformed := by
  unfold interrupt malformed isPending
  split_ifs with hpending
  · simp [hpending]
  · simp [hpending]

theorem pending_interrupt (d : Decoder) : d.interrupt.pending = 0 := by
  unfold interrupt
  split_ifs with hpending
  · exact hpending
  · rfl

namespace Alike

theorem malformed (h : Alike flag d e) : d.malformed = (flag || e.malformed) := by
  unfold Decoder.malformed isPending
  rw [h.error, h.pending, Bool.or_assoc]

/-- Decoders between two sequences are alike if their errors are. -/
theorem of_idle (hd : d.pending = 0) (he : e.pending = 0) (herror : d.error = (flag || e.error)) :
    Alike flag d e :=
  ⟨hd.trans he.symm, fun hpending ↦ absurd hd hpending, herror⟩

theorem interrupt (h : d.malformed = (flag || e.malformed)) :
    Alike flag d.interrupt e.interrupt :=
  of_idle d.pending_interrupt e.pending_interrupt (by rw [error_interrupt, error_interrupt, h])

theorem lead (h : d.malformed = (flag || e.malformed)) (bits continuations : Nat)
    (suspect : Bool) :
    Alike flag (d.lead bits continuations suspect) (e.lead bits continuations suspect) := by
  refine ⟨rfl, fun _ ↦ rfl, ?_⟩
  change (d.interrupt.error || suspect) = (flag || (e.interrupt.error || suspect))
  rw [error_interrupt, error_interrupt, h, Bool.or_assoc]

theorem continuation (h : Alike flag d e) (bits : Nat) :
    Alike flag (d.continuation bits).1 (e.continuation bits).1 ∧
      (d.continuation bits).2 = (e.continuation bits).2 := by
  unfold Decoder.continuation
  rw [← h.pending]
  split_ifs with hzero hone
  · exact ⟨of_idle hzero (h.pending ▸ hzero) (Bool.or_true flag).symm, rfl⟩
  · rw [h.codePoint hzero]
    exact ⟨⟨rfl, fun _ ↦ rfl, h.error⟩, rfl⟩
  · rw [h.codePoint hzero]
    exact ⟨⟨rfl, fun _ ↦ rfl, h.error⟩, rfl⟩

/-- At a byte that is no continuation only what was malformed in front of it counts. -/
theorem push_of_malformed (h : d.malformed = (flag || e.malformed))
    (hbyte : ¬ IsContinuation byte) :
    Alike flag (d.push byte).1 (e.push byte).1 ∧ (d.push byte).2 = (e.push byte).2 := by
  unfold Decoder.push
  dsimp only
  split_ifs with h80 hC0 hE0 hF0 hF8
  · exact ⟨interrupt h, rfl⟩
  · exact absurd ⟨Nat.le_of_not_lt h80, hC0⟩ hbyte
  · exact ⟨lead h _ _ _, rfl⟩
  · exact ⟨lead h _ _ _, rfl⟩
  · exact ⟨lead h _ _ _, rfl⟩
  · exact ⟨of_idle d.pending_interrupt e.pending_interrupt (Bool.or_true flag).symm, rfl⟩

theorem push (h : Alike flag d e) (byte : UInt8) :
    Alike flag (d.push byte).1 (e.push byte).1 ∧ (d.push byte).2 = (e.push byte).2 := by
  by_cases hbyte : IsContinuation byte
  · have hcontinues (d : Decoder) : d.push byte = d.continuation (byte.toNat - 0x80) := by
      unfold Decoder.push
      dsimp only
      rw [if_neg (Nat.not_lt.mpr hbyte.1), if_pos hbyte.2]
    rw [hcontinues, hcontinues]
    exact h.continuation _
  · exact push_of_malformed h.malformed hbyte

/-- Alike decoders stay alike, and answer the same code points. -/
theorem pushAll (h : Alike flag d e) (bytes : List UInt8) :
    Alike flag (d.pushAll bytes).1 (e.pushAll bytes).1 ∧
      (d.pushAll bytes).2 = (e.pushAll bytes).2 := by
  induction bytes generalizing d e with
  | nil => exact ⟨h, rfl⟩
  | cons byte bytes ih =>
    obtain ⟨hstep, hanswer⟩ := h.push byte
    obtain ⟨hrun, hanswers⟩ := ih hstep
    exact ⟨hrun, congrArg₂ (fun out outs ↦ Option.toList out ++ outs) hanswer hanswers⟩

end Alike

theorem alike_push_start (d : Decoder) (hbyte : ¬ IsContinuation byte) :
    Alike d.malformed (d.push byte).1 (start.push byte).1 ∧
      (d.push byte).2 = (start.push byte).2 :=
  Alike.push_of_malformed (Bool.or_false _).symm hbyte

/-- Whatever a decoder has read, it goes on with a text that does not start with a continuation byte
as if it read that text alone, and counts the errors of both. -/
theorem pushAll_eq_start (d : Decoder)
    (hfirst : ∀ byte ∈ bytes.head?, ¬ IsContinuation byte) :
    (d.pushAll bytes).2 = (start.pushAll bytes).2 ∧
      (d.pushAll bytes).1.malformed = (d.malformed || (start.pushAll bytes).1.malformed) := by
  cases bytes with
  | nil => exact ⟨rfl, (Bool.or_false _).symm⟩
  | cons byte bytes =>
    obtain ⟨hstep, hanswer⟩ := d.alike_push_start (hfirst byte rfl)
    obtain ⟨hrun, hanswers⟩ := hstep.pushAll bytes
    exact ⟨congrArg₂ (fun out outs ↦ Option.toList out ++ outs) hanswer hanswers, hrun.malformed⟩

theorem pushAll_append (d : Decoder) (front back : List UInt8) :
    d.pushAll (front ++ back) = (((d.pushAll front).1.pushAll back).1,
      (d.pushAll front).2 ++ ((d.pushAll front).1.pushAll back).2) := by
  induction front generalizing d with
  | nil => rfl
  | cons byte front ih =>
    change (((d.push byte).1.pushAll (front ++ back)).1,
      (d.push byte).2.toList ++ ((d.push byte).1.pushAll (front ++ back)).2) = _
    rw [ih, ← List.append_assoc]
    rfl

end Decoder

namespace Utf8

theorem Leads.not_continuation {byte : UInt8} {bits missing : Nat} (h : Leads byte bits missing) :
    ¬ IsContinuation byte := by
  unfold IsContinuation
  cases h <;> omega

theorem Sequences.not_continuation {bytes : List UInt8} {cps : List Nat} (h : Sequences bytes cps) :
    ∀ byte ∈ bytes.head?, ¬ IsContinuation byte := by
  cases bytes with
  | nil => exact fun byte hbyte ↦ absurd hbyte nofun
  | cons first bytes =>
    intro byte hbyte
    obtain rfl := Option.some.inj hbyte
    obtain ⟨bits, missing, hleads, _⟩ := sequences_cons_iff.mp h
    exact hleads.not_continuation

theorem toList_toUTF8 (text : String) : text.toUTF8.data.toList = encodeText text := by
  rw [toUTF8_eq_encodeText, List.data_toByteArray]

end Utf8

namespace Decoder

/-- A text is read in full behind any bytes, also behind those of a sequence that is cut off, and
adds no error to theirs. -/
theorem decoding_resumes_at_text (bytes : List UInt8) (text : String) :
    (start.pushAll (bytes ++ text.toUTF8.data.toList)).2 =
        (start.pushAll bytes).2 ++ text.toList.map Char.toNat ∧
      ((start.pushAll (bytes ++ text.toUTF8.data.toList)).1.finish.2 = true ↔
        (start.pushAll bytes).1.finish.2 = true) := by
  have hsequences := Utf8.sequences_encodeText text
  obtain ⟨hwell, hread⟩ := sequences_iff.mp hsequences
  obtain ⟨hanswers, hmalformed⟩ :=
    (start.pushAll bytes).1.pushAll_eq_start hsequences.not_continuation
  rw [Utf8.toList_toUTF8, pushAll_append]
  refine ⟨by rw [hanswers, hread], ?_⟩
  change ((start.pushAll bytes).1.pushAll (encodeText text)).1.malformed = true ↔ _
  rw [hmalformed, hwell, Bool.or_false]
  rfl

end Decoder

end SignalRegex
