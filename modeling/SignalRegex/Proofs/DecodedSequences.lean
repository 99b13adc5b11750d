import SignalRegex.Proofs.DecodedText
import SignalRegex.Utf8.Sequence

/-!
The decoder reads whole sequences and nothing else without an error.

A first byte says how many continuation bytes follow, and each of them leaves one fewer
(`sequences_cons_iff`, `Tails`). What may still follow a decoder without an error is therefore read
off its state (`Decoder.Follows`), and one byte takes it apart as the decoder does
(`follows_cons_iff`). Over a whole text this says that the decoder ends without an error on
sequences one after the other, and that it answers their code points (`follows_iff`). The bits of a
decoder leave room below the size of the alphabet whether or not there was an error
(`lt_alphabetSize_of_pushAll`).
-/

set_option autoImplicit false

namespace SignalRegex

namespace Utf8

variable {byte : UInt8} {bytes : List UInt8} {bits missing cp : Nat} {cps : List Nat}

/-! ### Sequences byte by byte -/

/-- A first byte with its bits, and the continuation bytes it asks for. -/
inductive Leads (byte : UInt8) : Nat → Nat → Prop where
  | one : byte.toNat < 0x80 → Leads byte byte.toNat 0
  | two {x : Nat} : byte.toNat = 0xC0 + x → 2 ≤ x → x < 32 → Leads byte x 1
  | three {x : Nat} : byte.toNat = 0xE0 + x → x < 16 → Leads byte x 2
  | four {x : Nat} : byte.toNat = 0xF0 + x → x < 5 → Leads byte x 3

/-- The bytes complete a code point of which the bits are read and some continuation bytes are
missing, and go on with whole sequences. -/
def Tails (bits : Nat) : Nat → List UInt8 → List Nat → Prop
  | 0, bytes, cps => ∃ rest, cps = bits :: rest ∧ Sequences bytes rest
  | missing + 1, bytes, cps => ∃ byte rest x, bytes = byte :: rest ∧ Continues byte x ∧
      Tails (bits * 64 + x) missing rest cps

theorem sequences_cons_iff : Sequences (byte :: bytes) cps ↔
    ∃ bits missing, Leads byte bits missing ∧ Tails bits missing bytes cps := by
  constructor
  · generalize hwhole : byte :: bytes = whole
    rintro (_ | ⟨hfirst, hrest⟩)
    · cases hwhole
    · cases hfirst with
      | one ha =>
        cases hwhole
        exact ⟨_, _, .one ha, _, rfl, hrest⟩
      | two ha hlow hhigh hb =>
        cases hwhole
        exact ⟨_, _, .two ha hlow hhigh, _, _, _, rfl, hb, _, rfl, hrest⟩
      | three ha hhigh hb hc =>
        cases hwhole
        exact ⟨_, _, .three ha hhigh, _, _, _, rfl, hb, _, _, _, rfl, hc, _, rfl, hrest⟩
      | four ha hhigh hb hc hd =>
        cases hwhole
        exact ⟨_, _, .four ha hhigh, _, _, _, rfl, hb, _, _, _, rfl, hc, _, _, _, rfl, hd, _, rfl,
          hrest⟩
  · rintro ⟨bits, missing, hlead, htails⟩
    cases hlead with
    | one ha =>
      obtain ⟨rest, rfl, hrest⟩ := htails
      exact .cons (.one ha) hrest
    | two ha hlow hhigh =>
      obtain ⟨b, _, _, rfl, hb, rest, rfl, hrest⟩ := htails
      exact .cons (.two ha hlow hhigh hb) hrest
    | three ha hhigh =>
      obtain ⟨b, _, _, rfl, hb, c, _, _, rfl, hc, rest, rfl, hrest⟩ := htails
      exact .cons (.three ha hhigh hb hc) hrest
    | four ha hhigh =>
      obtain ⟨b, _, _, rfl, hb, c, _, _, rfl, hc, d, _, _, rfl, hd, rest, rfl, hrest⟩ := htails
      exact .cons (.four ha hhigh hb hc hd) hrest

theorem sequences_nil_iff : Sequences [] cps ↔ cps = [] := by
  constructor
  · generalize hwhole : ([] : List UInt8) = whole
    rintro (_ | ⟨hfirst, _⟩)
    · rfl
    · exact absurd (List.append_eq_nil_iff.mp hwhole.symm).1 hfirst.ne_nil
  · rintro rfl
    exact .nil

end Utf8

namespace Decoder

open Utf8

variable {d : Decoder} {r : Decoder × Option Nat} {byte : UInt8} {bytes : List UInt8}
  {bits missing : Nat} {cps : List Nat}

/-! ### What may follow a decoder -/

/-- The bytes that may follow without an error, and the code points they make up. -/
def Follows (d : Decoder) (bytes : List UInt8) (cps : List Nat) : Prop :=
  if d.pending = 0 then Sequences bytes cps else Tails d.codePoint d.pending bytes cps

/-- After a byte there is no error, the bits are read and some bytes are missing; where none is, the
code point is answered. -/
structure Reaches (r : Decoder × Option Nat) (bits missing : Nat) : Prop where
  error : r.1.error = false
  pending : r.1.pending = missing
  codePoint : missing ≠ 0 → r.1.codePoint = bits
  answer : r.2 = if missing = 0 then some bits else none

theorem Reaches.tails_iff (h : Reaches r bits missing) : Tails bits missing bytes cps ↔
    ∃ rest, r.1.Follows bytes rest ∧ cps = r.2.toList ++ rest := by
  unfold Follows
  rw [h.pending, h.answer]
  cases missing with
  | zero =>
    constructor
    · rintro ⟨rest, rfl, hrest⟩
      exact ⟨rest, hrest, rfl⟩
    · rintro ⟨rest, hrest, rfl⟩
      exact ⟨rest, rfl, hrest⟩
  | succ missing =>
    rw [h.codePoint (Nat.succ_ne_zero missing)]
    constructor
    · intro htails
      exact ⟨cps, htails, rfl⟩
    · rintro ⟨rest, hrest, rfl⟩
      exact hrest

/-! ### One byte -/

theorem reaches_of_leads (herror : d.error = false) (hpending : d.pending = 0)
    (h : Leads byte bits missing) : Reaches (d.push byte) bits missing := by
  have hidle : d.interrupt = d := if_pos hpending
  unfold push lead
  rw [hidle, herror]
  cases h with
  | one ha =>
    rw [if_pos ha]
    exact ⟨herror, hpending, fun h ↦ absurd rfl h, rfl⟩
  | two ha hlow hhigh =>
    simp only [ha]
    rw [if_neg (by omega), if_neg (by omega), if_pos (by omega)]
    exact ⟨decide_eq_false (by omega), rfl, fun _ ↦ Nat.add_sub_cancel_left _ _, rfl⟩
  | three ha hhigh =>
    simp only [ha]
    rw [if_neg (by omega), if_neg (by omega), if_neg (by omega), if_pos (by omega)]
    exact ⟨rfl, rfl, fun _ ↦ Nat.add_sub_cancel_left _ _, rfl⟩
  | four ha hhigh =>
    simp only [ha]
    rw [if_neg (by omega), if_neg (by omega), if_neg (by omega), if_neg (by omega),
      if_pos (by omega)]
    exact ⟨decide_eq_false (by omega), rfl, fun _ ↦ Nat.add_sub_cancel_left _ _, rfl⟩

theorem reaches_of_continues {x : Nat} (herror : d.error = false)
    (hpending : d.pending = missing + 1) (h : Continues byte x) :
    Reaches (d.push byte) (d.codePoint * 64 + x) missing := by
  obtain ⟨hbyte, hx⟩ := h
  unfold push continuation
  simp only [hbyte, hpending, Nat.add_sub_cancel_left, Nat.add_sub_cancel]
  rw [if_neg (by omega), if_pos (by omega), if_neg (Nat.succ_ne_zero missing)]
  exact ⟨herror, rfl, fun _ ↦ rfl, by simp⟩

/-- Between two sequences only a first byte leaves no error behind. -/
theorem exists_leads (hpending : d.pending = 0) (h : (d.push byte).1.error = false) :
    ∃ bits missing, Leads byte bits missing := by
  have hbyte : ∀ low : Nat, low ≤ byte.toNat → byte.toNat = low + (byte.toNat - low) :=
    fun low hlow ↦ (Nat.add_sub_cancel' hlow).symm
  unfold push continuation lead at h
  dsimp only at h
  rw [if_pos hpending] at h
  split_ifs at h with h80 hC0 hE0 hF0 hF8
  · exact ⟨_, _, .one h80⟩
  · have hlow := of_decide_eq_false (Bool.or_eq_false_iff.mp h).2
    exact ⟨_, _, .two (hbyte 0xC0 (by omega)) (by omega) (by omega)⟩
  · exact ⟨_, _, .three (hbyte 0xE0 (by omega)) (by omega)⟩
  · have hhigh := of_decide_eq_false (Bool.or_eq_false_iff.mp h).2
    exact ⟨_, _, .four (hbyte 0xF0 (by omega)) (by omega)⟩

/-- Within a sequence only a continuation byte leaves no error behind. -/
theorem exists_continues (hpending : d.pending ≠ 0) (h : (d.push byte).1.error = false) :
    ∃ x, Continues byte x := by
  have hcut : d.interrupt.error = true := congrArg error (if_neg hpending)
  unfold push lead at h
  dsimp only at h
  rw [hcut] at h
  split_ifs at h with h80 hC0 hE0 hF0 hF8
  · rw [hcut] at h
    cases h
  · exact ⟨byte.toNat - 0x80, (Nat.add_sub_cancel' (Nat.le_of_not_lt h80)).symm, by omega⟩
  · cases h
  · cases h
  · cases h

/-- One byte takes apart what may follow a decoder. -/
theorem follows_cons_iff (herror : d.error = false) : d.Follows (byte :: bytes) cps ↔
    (d.push byte).1.error = false ∧
      ∃ rest, (d.push byte).1.Follows bytes rest ∧ cps = (d.push byte).2.toList ++ rest := by
  cases hpending : d.pending with
  | zero =>
    have hfollows : d.Follows (byte :: bytes) cps ↔ Sequences (byte :: bytes) cps :=
      iff_of_eq (if_pos hpending)
    rw [hfollows, sequences_cons_iff]
    constructor
    · rintro ⟨bits, missing, hlead, htails⟩
      have hreaches := reaches_of_leads herror hpending hlead
      exact ⟨hreaches.error, hreaches.tails_iff.mp htails⟩
    · rintro ⟨hpushed, hrest⟩
      obtain ⟨bits, missing, hlead⟩ := exists_leads hpending hpushed
      exact ⟨bits, missing, hlead, (reaches_of_leads herror hpending hlead).tails_iff.mpr hrest⟩
  | succ missing =>
    have hne : d.pending ≠ 0 := hpending ▸ Nat.succ_ne_zero missing
    have hfollows : d.Follows (byte :: bytes) cps ↔
        Tails d.codePoint (missing + 1) (byte :: bytes) cps := by
      rw [Follows, if_neg hne, hpending]
    rw [hfollows]
    constructor
    · rintro ⟨_, _, x, heq, hcontinues, htails⟩
      cases heq
      have hreaches := reaches_of_continues herror hpending hcontinues
      exact ⟨hreaches.error, hreaches.tails_iff.mp htails⟩
    · rintro ⟨hpushed, hrest⟩
      obtain ⟨x, hcontinues⟩ := exists_continues hne hpushed
      exact ⟨byte, bytes, x, rfl, hcontinues,
        (reaches_of_continues herror hpending hcontinues).tails_iff.mpr hrest⟩

theorem follows_nil_iff : d.Follows [] cps ↔ d.pending = 0 ∧ cps = [] := by
  unfold Follows
  cases d.pending with
  | zero => exact sequences_nil_iff.trans (and_iff_right rfl).symm
  | succ missing =>
    constructor
    · rintro ⟨_, _, _, heq, _⟩
      cases heq
    · rintro ⟨hzero, _⟩
      cases hzero

/-! ### Whole texts -/

/-- What may follow a decoder is what it ends without an error on, with the code points it
answers. -/
theorem follows_iff (herror : d.error = false) : d.Follows bytes cps ↔
    (d.pushAll bytes).1.malformed = false ∧ (d.pushAll bytes).2 = cps := by
  induction bytes generalizing d cps with
  | nil =>
    have hmalformed : d.malformed = false ↔ d.pending = 0 := by
      simp [malformed, isPending, herror]
    rw [follows_nil_iff, pushAll, hmalformed]
    exact and_congr Iff.rfl eq_comm
  | cons byte bytes ih =>
    rw [follows_cons_iff herror]
    constructor
    · rintro ⟨hpushed, rest, hrest, rfl⟩
      obtain ⟨hmalformed, houts⟩ := (ih hpushed).mp hrest
      exact ⟨hmalformed, congrArg _ houts⟩
    · rintro ⟨hmalformed, rfl⟩
      -- an error would have stayed to the end
      have hpushed : (d.push byte).1.error = false :=
        error_pushAll (Bool.or_eq_false_iff.mp hmalformed).1
      exact ⟨hpushed, _, (ih hpushed).mpr ⟨hmalformed, rfl⟩, rfl⟩

theorem sequences_iff : Sequences bytes cps ↔
    (start.pushAll bytes).1.malformed = false ∧ (start.pushAll bytes).2 = cps :=
  follows_iff (d := start) rfl

/-! ### Room below the size of the alphabet -/

/-- However the missing bytes turn out, the code point stays within the alphabet. -/
def Fits (d : Decoder) : Prop :=
  (d.codePoint + 1) * 64 ^ d.pending ≤ alphabetSize

theorem fits_start : start.Fits := by
  unfold Fits
  decide

theorem Fits.interrupt (h : d.Fits) : d.interrupt.Fits := by
  unfold Decoder.interrupt
  split_ifs
  · exact h
  · exact (by decide : (0 + 1) * 64 ^ 0 ≤ alphabetSize)

theorem Fits.continuation (h : d.Fits) (hbits : bits < 64) :
    (d.continuation bits).1.Fits ∧ ∀ cp ∈ (d.continuation bits).2, cp < alphabetSize := by
  have hleft : (d.codePoint + 1) * 64 ^ d.pending ≤ alphabetSize := h
  unfold Decoder.continuation
  cases hpending : d.pending with
  | zero =>
    rw [hpending] at hleft
    exact ⟨hleft, fun _ hcp ↦ absurd hcp nofun⟩
  | succ missing =>
    rw [hpending] at hleft
    have hroom := room_of_lt hbits hleft
    refine ⟨hroom, fun cp hcp ↦ ?_⟩
    -- a code point is answered when nothing is missing
    cases missing with
    | zero =>
      obtain rfl := Option.some.inj hcp
      rwa [Nat.pow_zero, Nat.mul_one] at hroom
    | succ missing => exact absurd hcp nofun

theorem Fits.push (h : d.Fits) (byte : UInt8) :
    (d.push byte).1.Fits ∧ ∀ cp ∈ (d.push byte).2, cp < alphabetSize := by
  have hlead : ∀ {bits continuations : Nat} {suspect : Bool},
      (bits + 1) * 64 ^ continuations ≤ alphabetSize →
        (d.lead bits continuations suspect).Fits ∧ ∀ cp ∈ (none : Option Nat), cp < alphabetSize :=
    fun hroom ↦ ⟨hroom, fun _ hcp ↦ absurd hcp nofun⟩
  unfold Decoder.push
  dsimp only
  split_ifs with h80 hC0 hE0 hF0 hF8
  · refine ⟨h.interrupt, fun cp hcp ↦ ?_⟩
    obtain rfl := Option.some.inj hcp
    exact Nat.lt_trans h80 (by decide)
  · exact h.continuation (by omega)
  · exact hlead (by rw [alphabetSize]; omega)
  · exact hlead (by rw [alphabetSize]; omega)
  · exact hlead (by rw [alphabetSize]; omega)
  · exact ⟨h.interrupt, fun _ hcp ↦ absurd hcp nofun⟩

theorem lt_alphabetSize_of_pushAll (h : d.Fits) (bytes : List UInt8) :
    ∀ cp ∈ (d.pushAll bytes).2, cp < alphabetSize := by
  induction bytes generalizing d with
  | nil => exact fun cp hcp ↦ absurd hcp List.not_mem_nil
  | cons byte bytes ih =>
    obtain ⟨hfits, hanswer⟩ := h.push byte
    intro cp hcp
    rcases List.mem_append.mp hcp with hhead | hrest
    · exact hanswer cp (Option.mem_toList.mp hhead)
    · exact ih hfits cp hrest

end Decoder

/-! ### Encoded texts -/

namespace Utf8

theorem toNat_ofNat_add (bits marker : Nat) (h : bits + marker < 256) :
    (UInt8.ofNat (bits + marker)).toNat = marker + bits := by
  rw [UInt8.toNat_ofNat', Nat.mod_eq_of_lt h, Nat.add_comm]

theorem continues_ofNat (n : Nat) : Continues (UInt8.ofNat (n % 64 + 0x80)) (n % 64) :=
  ⟨toNat_ofNat_add _ 0x80 (by omega), by omega⟩

/-- A character is written as one sequence, whose bits make up its number. -/
theorem sequence_utf8EncodeChar (c : Char) : Sequence (String.utf8EncodeChar c) c.toNat := by
  have hchar : c.toNat < 0x110000 := by
    have hvalid := c.valid
    simp only [UInt32.isValidChar, Nat.isValidChar, Char.toNat_val] at hvalid
    omega
  unfold String.utf8EncodeChar
  simp only [Char.toNat_val]
  generalize c.toNat = v at hchar ⊢
  split_ifs with h1 h2 h3
  · have hone := Sequence.one (a := UInt8.ofNat v)
    rw [UInt8.toNat_ofNat', Nat.mod_eq_of_lt (by omega)] at hone
    exact hone (by omega)
  · have hbits : v / 64 % 32 * 64 + v % 64 = v := by omega
    have htwo := Sequence.two (toNat_ofNat_add (v / 64 % 32) 0xC0 (by omega)) (by omega)
      (by omega) (continues_ofNat v)
    rwa [hbits] at htwo
  · have hbits : (v / 4096 % 16 * 64 + v / 64 % 64) * 64 + v % 64 = v := by omega
    have hthree := Sequence.three (toNat_ofNat_add (v / 4096 % 16) 0xE0 (by omega))
      (by omega) (continues_ofNat (v / 64)) (continues_ofNat v)
    rwa [hbits] at hthree
  · have hbits : ((v / 262144 % 8 * 64 + v / 4096 % 64) * 64 + v / 64 % 64) * 64 + v % 64 = v := by
      omega
    have hfour := Sequence.four (toNat_ofNat_add (v / 262144 % 8) 0xF0 (by omega))
      (by omega) (continues_ofNat (v / 4096)) (continues_ofNat (v / 64)) (continues_ofNat v)
    rwa [hbits] at hfour

theorem sequences_encodeText (text : String) :
    Sequences (encodeText text) (text.toList.map Char.toNat) := by
  unfold encodeText
  induction text.toList with
  | nil => exact .nil
  | cons c chars ih =>
    rw [List.flatMap_cons]
    exact .cons (sequence_utf8EncodeChar c) ih

theorem toUTF8_eq_encodeText (text : String) : text.toUTF8 = (encodeText text).toByteArray :=
  calc text.toUTF8 = (String.ofList text.toList).toByteArray := by
        rw [String.toUTF8_eq_toByteArray, String.ofList_toList]
    _ = text.toList.utf8Encode := String.toByteArray_ofList

end Utf8

namespace Decoder

/-- The decoder ends without an error on whole sequences and on nothing else, and answers their code
points, which the comparators can see. Whatever the bytes are, it stays within the alphabet. A text
is read back from its encoding. -/
theorem decodes_sequences (bytes : List UInt8) (text : String) :
    ((start.pushAll bytes).1.finish.2 = false ↔ ∃ cps, Utf8.Sequences bytes cps) ∧
    (∀ cps, Utf8.Sequences bytes cps →
      (start.pushAll bytes).2 = cps ∧ ∀ cp ∈ cps, cp < testableLimit) ∧
    (∀ cp ∈ (start.pushAll bytes).2, cp < alphabetSize) ∧
    text.toUTF8 = (encodeText text).toByteArray ∧
    (start.pushAll (encodeText text)).2 = text.toList.map Char.toNat ∧
    (start.pushAll (encodeText text)).1.finish.2 = false := by
  obtain ⟨hwell, hread⟩ := sequences_iff.mp (Utf8.sequences_encodeText text)
  refine ⟨⟨fun h ↦ ⟨_, sequences_iff.mpr ⟨h, rfl⟩⟩, ?_⟩, ?_,
    lt_alphabetSize_of_pushAll fits_start bytes, Utf8.toUTF8_eq_encodeText text,
    hread, hwell⟩
  · rintro ⟨cps, hcps⟩
    exact (sequences_iff.mp hcps).1
  · intro cps hcps
    obtain ⟨hmalformed, rfl⟩ := sequences_iff.mp hcps
    exact ⟨rfl, lt_testableLimit_of_malformed_eq_false hmalformed⟩

end Decoder

end SignalRegex
