/-!
Decoding of bytes into code points, one byte at a time.

The decoder reads every sequence that has the right shape: overlong forms, surrogates and code
points past the last character are decoded. A continuation byte outside a sequence and a byte that
starts no sequence are passed over, and a sequence that is cut off is dropped. These, and lead
bytes that no encoder writes, are remembered as an error until the end of the text.
-/

set_option autoImplicit false

namespace SignalRegex

/-- The bits read so far, the continuation bytes still missing, and whether there was an error. -/
structure Decoder where
  codePoint : Nat
  pending : Nat
  error : Bool
deriving DecidableEq, Repr

namespace Decoder

/-- Before the first byte of a text. -/
def start : Decoder :=
  ⟨0, 0, false⟩

/-- Drops a sequence that is not complete and remembers the error. -/
def interrupt (d : Decoder) : Decoder :=
  if d.pending = 0 then d else ⟨0, 0, true⟩

/-- Starts a sequence with the bits of its lead byte. -/
def lead (d : Decoder) (bits continuations : Nat) (suspect : Bool) : Decoder :=
  ⟨bits, continuations, d.interrupt.error || suspect⟩

/-- Adds the bits of a continuation byte. -/
def continuation (d : Decoder) (bits : Nat) : Decoder × Option Nat :=
  if d.pending = 0 then ({ d with error := true }, none)
  else
    let codePoint := d.codePoint * 64 + bits
    (⟨codePoint, d.pending - 1, d.error⟩, if d.pending = 1 then some codePoint else none)

/-- Takes one byte, and answers a code point when the byte completes one. -/
def push (d : Decoder) (byte : UInt8) : Decoder × Option Nat :=
  let b := byte.toNat
  if b < 0x80 then (d.interrupt, some b)
  else if b < 0xC0 then d.continuation (b - 0x80)
  else if b < 0xE0 then (d.lead (b - 0xC0) 1 (decide (b < 0xC2)), none)
  else if b < 0xF0 then (d.lead (b - 0xE0) 2 false, none)
  else if b < 0xF8 then (d.lead (b - 0xF0) 3 (decide (0xF5 ≤ b)), none)
  else ({ d.interrupt with error := true }, none)

/-- Whether some bytes of a sequence are still missing. -/
def isPending (d : Decoder) : Bool :=
  d.pending != 0

/-- Whether a text that ends here had an error, an incomplete sequence at its end included. -/
def malformed (d : Decoder) : Bool :=
  d.error || d.isPending

/-- Ends the text: the decoder is ready for the next one, and answers whether this one had an
error. -/
def finish (d : Decoder) : Decoder × Bool :=
  (start, d.malformed)

/-- Takes some bytes, and answers the code points they complete. -/
def pushAll (d : Decoder) : List UInt8 → Decoder × List Nat
  | [] => (d, [])
  | byte :: bytes =>
    let (d, out) := d.push byte
    let (d, outs) := d.pushAll bytes
    (d, out.toList ++ outs)

end Decoder

/-- The bytes of a text. -/
def encodeText (text : String) : List UInt8 :=
  text.toList.flatMap String.utf8EncodeChar

end SignalRegex
