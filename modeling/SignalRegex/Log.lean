/-!
Messages for the reader of a log, and computations that write them.
-/

set_option autoImplicit false

namespace SignalRegex

inductive LogLevel where
  | debug
  | info
  | trace
deriving DecidableEq, Repr

namespace LogLevel

def name : LogLevel → String
  | debug => "DEBUG"
  | info => "INFO"
  | trace => "TRACE"

end LogLevel

structure LogEntry where
  level : LogLevel
  message : String
deriving DecidableEq, Repr

namespace LogEntry

/-- The entry as a line. -/
def line (e : LogEntry) : String :=
  e.level.name ++ " " ++ e.message

end LogEntry

/-- A value with the entries written on the way to it, oldest first. -/
structure Logged (α : Type) where
  log : List LogEntry
  value : α

namespace Logged

instance : Monad Logged where
  pure a := ⟨[], a⟩
  bind x f :=
    let y := f x.value
    ⟨x.log ++ y.log, y.value⟩

@[simp] theorem value_pure {α : Type} (a : α) : (pure a : Logged α).value = a :=
  rfl

@[simp] theorem value_bind {α β : Type} (x : Logged α) (f : α → Logged β) :
    (x >>= f).value = (f x.value).value :=
  rfl

instance : LawfulMonad Logged :=
  .mk' Logged
    (fun x ↦ congrArg (Logged.mk · x.value) (List.append_nil x.log))
    (fun _ _ ↦ rfl)
    (fun x _ _ ↦ congrArg (Logged.mk · _) (List.append_assoc x.log _ _))

/-- Writes one entry. -/
def write (level : LogLevel) (message : String) : Logged Unit :=
  ⟨[⟨level, message⟩], ()⟩

@[simp] theorem value_write (level : LogLevel) (message : String) :
    (write level message).value = () :=
  rfl

end Logged

end SignalRegex
