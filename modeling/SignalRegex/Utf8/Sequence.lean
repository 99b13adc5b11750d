import SignalRegex.Utf8.Decoder

/-!
The byte sequences that are read without an error: a byte below 80, or a lead byte from C2 to F4
with as many continuation bytes as it asks for. Nothing else is asked of the code point, so
overlong forms, surrogates and code points past the last character are among them.
-/

set_option autoImplicit false

namespace SignalRegex.Utf8

/-- A continuation byte that carries six bits. -/
def Continues (byte : UInt8) (bits : Nat) : Prop :=
  byte.toNat = 0x80 + bits ∧ bits < 64

/-- A sequence and the code point its bits make up. -/
inductive Sequence : List UInt8 → Nat → Prop where
  | one {a : UInt8} : a.toNat < 0x80 → Sequence [a] a.toNat
  | two {a b : UInt8} {x y : Nat} :
      a.toNat = 0xC0 + x → 2 ≤ x → x < 32 → Continues b y → Sequence [a, b] (x * 64 + y)
  | three {a b c : UInt8} {x y z : Nat} :
      a.toNat = 0xE0 + x → x < 16 → Continues b y → Continues c z →
        Sequence [a, b, c] ((x * 64 + y) * 64 + z)
  | four {a b c d : UInt8} {x y z t : Nat} :
      a.toNat = 0xF0 + x → x < 5 → Continues b y → Continues c z → Continues d t →
        Sequence [a, b, c, d] (((x * 64 + y) * 64 + z) * 64 + t)

/-- Sequences one after the other, and their code points. -/
inductive Sequences : List UInt8 → List Nat → Prop where
  | nil : Sequences [] []
  | cons {bytes rest : List UInt8} {cp : Nat} {cps : List Nat} :
      Sequence bytes cp → Sequences rest cps → Sequences (bytes ++ rest) (cp :: cps)

theorem Sequence.ne_nil {bytes : List UInt8} {cp : Nat} (h : Sequence bytes cp) : bytes ≠ [] := by
  cases h <;> exact List.cons_ne_nil _ _

end SignalRegex.Utf8
