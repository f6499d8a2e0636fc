import HackToolchain.Assembly.Encoding
import HackToolchain.Assembly.Source
import HackToolchain.Assembly.Symbols
import HackToolchain.Progress

/-! Assembling a program: labels get the position of the instruction after them, then every other
instruction becomes one word. -/
namespace HackToolchain.Assembly

open Machine (Word)

namespace Instruction

def isLabel : Instruction → Bool
  | .label _ => true
  | _ => false

/-- The symbol of an address instruction that is not a number. -/
def symbolic? : Instruction → Option String
  | .address symbol => if isNumeric symbol then none else some symbol
  | _ => none

end Instruction

/-- The symbols known so far and the number of instructions before the next one. -/
structure Layout where
  symbols : SymbolTable
  position : Nat

namespace Layout

/-- Takes in one instruction. Nothing may follow the last position that can be addressed. -/
def add (layout : Layout) (i : Instruction) : Except Error Layout :=
  if maxAddress < layout.position then .error .programTooLarge
  else match i with
    | .label symbol =>
      if layout.symbols.contains symbol then .error (.duplicateLabel symbol)
      else .ok { layout with symbols := layout.symbols.insert symbol layout.position }
    | _ => .ok { layout with position := layout.position + 1 }

def ofInstructions (instructions : List Instruction) : Except Error Layout :=
  instructions.foldlM add ⟨SymbolTable.initial, 0⟩

end Layout

def encodeAddress (symbols : SymbolTable) (symbol : String) : Except Error Word :=
  if isNumeric symbol then
    match Text.decimal? maxAddress symbol.toList with
    | some value => .ok (BitVec.ofNat 16 value)
    | none => .error (.addressOutOfRange symbol)
  else .ok (BitVec.ofNat 16 (symbols.getD symbol 0))

/-- The word of an instruction; a label has none. -/
def encode? (symbols : SymbolTable) : Instruction → Option (Except Error Word)
  | .address symbol => some (encodeAddress symbols symbol)
  | .compute dest comp jump => some (.ok (computation dest comp jump).encode)
  | .label _ => none

/-- The words of a list of instructions, up to the first literal that is no address. -/
def assembleInstructions (instructions : List Instruction) : Progress Error Word :=
  match Layout.ofInstructions instructions with
  | .error e => ⟨[], some e⟩
  | .ok layout =>
    let symbols := layout.symbols.addVariables (instructions.filterMap Instruction.symbolic?)
    .ofResults (instructions.filterMap (encode? symbols))

def assemble (source : List Char) : Progress Error Word :=
  match parse source with
  | .error e => ⟨[], some e⟩
  | .ok instructions => assembleInstructions instructions

end HackToolchain.Assembly
