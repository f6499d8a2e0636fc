import HackToolchain.Vm.Command.Reader

/-! Reading a unit command by command, with the last command at hand. -/
namespace HackToolchain.Vm

namespace Reading

/-- The command that a reading shows; an erroneous one stands for what could not be read. -/
def command (reading : Reading) : Command :=
  match reading.result with
  | .ok c => c
  | .error _ => .erroneous

/-- Why there is no command. -/
def error? (reading : Reading) : Option CommandError :=
  match reading.result with
  | .ok _ => none
  | .error e => some e

end Reading

/-- A unit part way through: the tokens still to be read, and what was read last. -/
structure Cursor where
  stream : TokenStream
  last? : Option Reading

namespace Cursor

def hasMore (c : Cursor) : Bool :=
  c.stream.peek.kind ≠ .endOfInput

/-- Nothing read yet looks like an error without a cause. -/
def command (c : Cursor) : Command :=
  c.last?.elim .erroneous Reading.command

def line (c : Cursor) : Nat :=
  c.last?.elim 0 Reading.line

def error? (c : Cursor) : Option CommandError :=
  c.last?.bind Reading.error?

def advance (c : Cursor) : Cursor :=
  ⟨c.stream.read.2, some c.stream.read.1⟩

end Cursor

/-- Where a unit stands after so many advances. -/
def TokenStream.cursor (s : TokenStream) : Nat → Cursor
  | 0 => ⟨s, none⟩
  | n + 1 => (s.cursor n).advance

end HackToolchain.Vm
