import HackToolchain.Vm.Error
import HackToolchain.Assembly.Instruction

/-! The stream that generated code is written to. It may have room for so many bytes only; then it
keeps what fits, to the byte, and refuses the rest. -/
namespace HackToolchain.Codegen

/-- One line of output: an instruction, or a comment that shows the command it comes from. -/
inductive Line where
  | code (instruction : Assembly.Instruction)
  | comment (command : Vm.Instruction)
  deriving DecidableEq

namespace Line

/-- The line in the pieces in which it is sent out. -/
def pieces : Line → List String
  | .code instruction => instruction.pieces ++ ["\n"]
  | .comment command => "// " :: command.pieces ++ ["\n"]

def text (l : Line) : String :=
  String.join l.pieces

end Line

/-- `lines` were taken whole; `cut` holds the first bytes of one that did not fit. -/
structure Sink where
  lines : Array Line
  cut : ByteArray
  /-- How many bytes can still be taken, if that is limited. -/
  room? : Option Nat

namespace Sink

def empty (room? : Option Nat) : Sink := ⟨#[], .empty, room?⟩

def unlimited : Sink := empty none

/-- Nothing is held back in memory, so there is nothing to flush. -/
def flush (_ : Sink) : Id (Except Vm.WriteError Unit) := .ok ()

def text (s : Sink) : String :=
  s.lines.foldl (fun text line => text ++ line.text) ""

/-- Everything taken so far. -/
def bytes (s : Sink) : ByteArray :=
  s.text.toUTF8 ++ s.cut

/-- The pieces of the lines from number `count` on. -/
def piecesFrom (s : Sink) (count : Nat) : List String :=
  (s.lines.extract count s.lines.size).toList.flatMap Line.pieces

/-- Writes a line and says whether it fitted. -/
def putLine (s : Sink) (line : Line) : Sink × Bool :=
  match s.room? with
  | none => ({ s with lines := s.lines.push line }, true)
  | some room =>
    let bytes := line.text.toUTF8
    if bytes.size ≤ room then
      ({ s with lines := s.lines.push line, room? := some (room - bytes.size) }, true)
    else ({ s with cut := s.cut ++ bytes.extract 0 room, room? := some 0 }, false)

/-- Writes lines up to the first that does not fit. -/
def put (s : Sink) : List Line → Sink × Bool
  | [] => (s, true)
  | line :: rest =>
    match s.putLine line with
    | (s, true) => s.put rest
    | (s, false) => (s, false)

theorem put_of_unlimited (s : Sink) (unlimited : s.room? = none) (lines : List Line) :
    s.put lines = ({ s with lines := s.lines ++ lines.toArray }, true) := by
  induction lines generalizing s with
  | nil => simp [put]
  | cons line rest ih => simp [put, putLine, unlimited, ih]

end Sink

end HackToolchain.Codegen
