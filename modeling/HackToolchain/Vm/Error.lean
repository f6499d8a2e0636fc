import HackToolchain.Vm.Instruction

/-! Everything that can stop a unit, from its characters to the stream its code is written to. -/
namespace HackToolchain.Vm

/-- Instructions without code. -/
inductive CodeError where
  | indexOutOfRange (segment : Segment) (index : UInt16)
  | popConstant
  | duplicateLabel (symbol : String)
  | tooManyArguments (function : String)
  deriving DecidableEq

def CodeError.message : CodeError → String
  | .indexOutOfRange segment index => s!"{segment.name} index {index.toNat.repr} out of range"
  | .popConstant => "cannot pop into the constant segment"
  | .duplicateLabel symbol => s!"label {symbol} defined twice"
  | .tooManyArguments function => s!"{function}: too many arguments for one frame"

/-- Failures of an output stream. -/
inductive WriteError where
  | sinkFull
  | refused (reason : String)
  deriving DecidableEq

def WriteError.reason : WriteError → String
  | .sinkFull => "sink full"
  | .refused reason => reason

inductive Error where
  | lex (e : LexError)
  | command (e : CommandError)
  | instruction (e : InstructionError)
  | code (e : CodeError)
  | write (e : WriteError)
  deriving DecidableEq

def Error.message : Error → String
  | .lex e => e.message
  | .command e => e.message
  | .instruction e => e.message
  | .code e => e.message
  | .write e => s!"write failed: {e.reason}"

end HackToolchain.Vm
