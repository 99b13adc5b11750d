import SignalRegex.Program.Basic
import SignalRegex.Wire.Value

/-!
The wire form of ranges, sets, conditions and programs.

Ranges are checked when they are read and the ranges of a set are sorted; subranges and the tables
of a program are taken as they stand. The fields of each type are listed in the order in which they
are written, which is the order they have where a record is written as a list.
-/

set_option autoImplicit false

namespace SignalRegex

open Wire

namespace CodeRange

def fieldNames : List String :=
  ["start", "stop"]

def toWire (r : CodeRange) : Value :=
  .record [("start", .ofNat r.start), ("stop", .ofNat r.stop)]

def ofWire? (v : Value) : Option CodeRange := do
  let start ← v.field? fieldNames "start" Value.word?
  let stop ← v.field? fieldNames "stop" Value.word?
  (ofBounds start stop).toOption

end CodeRange

namespace CharSet

def fieldNames : List String :=
  ["ranges"]

def toWire (s : CharSet) : Value :=
  .record [("ranges", .list (s.ranges.map CodeRange.toWire))]

def ofWire? (v : Value) : Option CharSet := do
  let ranges ← v.field? fieldNames "ranges" (Value.list? CodeRange.ofWire?)
  return ofRanges ranges

end CharSet

namespace SubRange

def fieldNames : List String :=
  ["block", "start", "end"]

def toWire (s : SubRange) : Value :=
  .record [("block", .ofNat s.block), ("start", .ofNat s.low), ("end", .ofNat s.high)]

def ofWire? (v : Value) : Option SubRange := do
  let block ← v.field? fieldNames "block" Value.word?
  let low ← v.field? fieldNames "start" Value.byte?
  let high ← v.field? fieldNames "end" Value.byte?
  return ⟨block, low, high⟩

end SubRange

namespace RangeSignal

def fieldNames : List String :=
  ["charset", "subranges"]

def toWire (s : RangeSignal) : Value :=
  .record [("charset", s.charset.toWire), ("subranges", .list (s.subranges.map SubRange.toWire))]

def ofWire? (v : Value) : Option RangeSignal := do
  let charset ← v.field? fieldNames "charset" CharSet.ofWire?
  let subranges ← v.field? fieldNames "subranges" (Value.list? SubRange.ofWire?)
  return ⟨charset, subranges⟩

end RangeSignal

namespace Condition

/-- The fields of a signal. -/
def fieldNames : List String :=
  ["id", "negated"]

def toWire : Condition → Value
  | never => .text "Never"
  | always => .text "Always"
  | signal id negated =>
    .record [("Signal", .record [("id", .ofNat id), ("negated", .bool negated)])]

/-- A constant is its name, or a record with that one field and null in it; a signal is a record
with the one field that describes it. -/
def ofWire? : Value → Option Condition
  | .text "Never" => some never
  | .text "Always" => some always
  | .record [("Never", .null)] => some never
  | .record [("Always", .null)] => some always
  | .record [("Signal", v)] => do
    let id ← v.field? fieldNames "id" Value.word?
    let negated ← v.field? fieldNames "negated" Value.bool?
    return signal id negated
  | _ => none

end Condition

namespace Program

namespace Edge

def fieldNames : List String :=
  ["source", "condition"]

def toWire (e : Edge) : Value :=
  .record [("source", .ofNat e.source), ("condition", e.condition.toWire)]

def ofWire? (v : Value) : Option Edge := do
  let source ← v.field? fieldNames "source" Value.word?
  let condition ← v.field? fieldNames "condition" Condition.ofWire?
  return ⟨source, condition⟩

end Edge

namespace State

def fieldNames : List String :=
  ["index", "initial", "incoming"]

def toWire (s : State) : Value :=
  .record [("index", .ofNat s.index), ("initial", .bool s.initial),
    ("incoming", .list (s.incoming.map Edge.toWire))]

def ofWire? (v : Value) : Option State := do
  let index ← v.field? fieldNames "index" Value.word?
  let initial ← v.field? fieldNames "initial" Value.bool?
  let incoming ← v.field? fieldNames "incoming" (Value.list? Edge.ofWire?)
  return ⟨index, initial, incoming⟩

end State

namespace Pattern

def fieldNames : List String :=
  ["source", "accepting"]

def toWire (p : Pattern) : Value :=
  .record [("source", .text p.source), ("accepting", .list (p.accepting.map Value.ofNat))]

def ofWire? (v : Value) : Option Pattern := do
  let source ← v.field? fieldNames "source" Value.text?
  let accepting ← v.field? fieldNames "accepting" (Value.list? Value.word?)
  return ⟨source, accepting⟩

end Pattern

def fieldNames : List String :=
  ["name", "states", "patterns", "signals", "subranges", "alphabet_size"]

def toWire (p : Program) : Value :=
  .record [("name", .text p.name), ("states", .list (p.states.map State.toWire)),
    ("patterns", .list (p.patterns.map Pattern.toWire)),
    ("signals", .list (p.signals.map RangeSignal.toWire)),
    ("subranges", .list (p.subranges.map SubRange.toWire)),
    ("alphabet_size", .ofNat p.alphabetSize)]

def ofWire? (v : Value) : Option Program := do
  let name ← v.field? fieldNames "name" Value.text?
  let states ← v.field? fieldNames "states" (Value.list? State.ofWire?)
  let patterns ← v.field? fieldNames "patterns" (Value.list? Pattern.ofWire?)
  let signals ← v.field? fieldNames "signals" (Value.list? RangeSignal.ofWire?)
  let subranges ← v.field? fieldNames "subranges" (Value.list? SubRange.ofWire?)
  let alphabetSize ← v.field? fieldNames "alphabet_size" Value.word?
  return { name, states, patterns, signals, subranges, alphabetSize }

end Program

end SignalRegex
