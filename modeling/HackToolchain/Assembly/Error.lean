import HackToolchain.Text.Quoted

/-! Everything that is wrong with assembly text. -/
namespace HackToolchain.Assembly

/-- Faults of one instruction. -/
inductive Fault where
  | missingSymbol
  | unclosedLabel (symbol : String)
  | illegalDest (text : String)
  | illegalComp (text : String)
  | illegalJump (text : String)
  | unexpectedChar (char : Char)
  deriving DecidableEq

def Fault.message : Fault → String
  | .missingSymbol => "missing symbol"
  | .unclosedLabel symbol => s!"unclosed label ({symbol}"
  | .illegalDest text => s!"illegal dest {Text.quoted text}"
  | .illegalComp text => s!"illegal comp {Text.quoted text}"
  | .illegalJump text => s!"illegal jump {Text.quoted text}"
  | .unexpectedChar char => s!"unexpected character {Text.quotedChar char}"

inductive Error where
  | syntactic (line : Nat) (fault : Fault)
  | addressOutOfRange (symbol : String)
  | duplicateLabel (symbol : String)
  | programTooLarge
  deriving DecidableEq

def Error.message : Error → String
  | .syntactic line fault => s!"line {line}: {fault.message}"
  | .addressOutOfRange symbol => s!"address {symbol} out of range"
  | .duplicateLabel symbol => s!"label {symbol} defined twice"
  | .programTooLarge => "program does not fit in ROM"

end HackToolchain.Assembly
