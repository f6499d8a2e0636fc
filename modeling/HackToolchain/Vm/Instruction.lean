import HackToolchain.Vm.Command.Reader

/-! Typed instructions of the stack machine, and commands as instructions. -/
namespace HackToolchain.Vm

inductive Instruction where
  | arithmetic (op : ArithmeticOp)
  | push (segment : Segment) (index : UInt16)
  | pop (segment : Segment) (index : UInt16)
  | label (name : String)
  | goto (target : String)
  | ifGoto (target : String)
  | function (name : String) (locals : UInt16)
  | call (function : String) (arguments : UInt16)
  | return
  deriving DecidableEq

/-- Why a command is not an instruction. A command is malformed when it lacks an argument. -/
inductive InstructionError where
  | malformed (kind : CommandKind)
  | unknownOperator (word : String)
  | unknownSegment (word : String)
  deriving DecidableEq

def InstructionError.message : InstructionError → String
  | .malformed kind => s!"malformed {kind.name} command"
  | .unknownOperator word => s!"unknown arithmetic command {Text.quoted word}"
  | .unknownSegment word => s!"unknown segment {Text.quoted word}"

def ArithmeticOp.ofName (word : String) : Except InstructionError ArithmeticOp :=
  match ofName? word with
  | some op => .ok op
  | none => .error (.unknownOperator word)

def Segment.ofName (word : String) : Except InstructionError Segment :=
  match ofName? word with
  | some segment => .ok segment
  | none => .error (.unknownSegment word)

namespace Command

def requireName (c : Command) : Except InstructionError String :=
  match c.name? with
  | some name => .ok name
  | none => .error (.malformed c.kind)

def requireCount (c : Command) : Except InstructionError UInt16 :=
  match c.count? with
  | some count => .ok count
  | none => .error (.malformed c.kind)

/-- The name is examined before the count. -/
def toInstruction (c : Command) : Except InstructionError Instruction :=
  match c.kind with
  | .arithmetic => return .arithmetic (← ArithmeticOp.ofName (← c.requireName))
  | .push => return .push (← Segment.ofName (← c.requireName)) (← c.requireCount)
  | .pop => return .pop (← Segment.ofName (← c.requireName)) (← c.requireCount)
  | .label => return .label (← c.requireName)
  | .goto => return .goto (← c.requireName)
  | .ifGoto => return .ifGoto (← c.requireName)
  | .function => return .function (← c.requireName) (← c.requireCount)
  | .call => return .call (← c.requireName) (← c.requireCount)
  | .return => return .return
  | .erroneous => throw (.malformed .erroneous)

end Command

namespace Instruction

/-- The written form in the pieces in which it is sent out. -/
def pieces : Instruction → List String
  | .arithmetic op => [op.name]
  | .push segment index => ["push ", segment.name, " ", index.toNat.repr]
  | .pop segment index => ["pop ", segment.name, " ", index.toNat.repr]
  | .label name => ["label ", name]
  | .goto target => ["goto ", target]
  | .ifGoto target => ["if-goto ", target]
  | .function name locals => ["function ", name, " ", locals.toNat.repr]
  | .call name arguments => ["call ", name, " ", arguments.toNat.repr]
  | .return => ["return"]

def text (i : Instruction) : String :=
  String.join i.pieces

end Instruction

end HackToolchain.Vm
