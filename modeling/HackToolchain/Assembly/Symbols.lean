import HackToolchain.Assembly.Instruction
import HackToolchain.Text.Decimal
import Std.Data.TreeMap.Basic

/-! Addresses of symbols: predefined names, labels and variables. -/
namespace HackToolchain.Assembly

/-- The largest address that an instruction can load. -/
def maxAddress : Nat := 32767

/-- Where variables start in data memory. -/
def firstVariable : Nat := 16

abbrev SymbolTable := Std.TreeMap String Nat

def predefined : List (String × Nat) :=
  (List.range 16).map (fun n => ("R" ++ n.repr, n)) ++
    [("SP", 0), ("LCL", 1), ("ARG", 2), ("THIS", 3), ("THAT", 4), ("SCREEN", 16384), ("KBD", 24576)]

namespace SymbolTable

def initial : SymbolTable :=
  predefined.foldl (fun table (symbol, address) => table.insert symbol address) ∅

/-- Gives every symbol that has no address yet the next variable, in the order of first use. -/
def addVariables (table : SymbolTable) (symbols : List String) : SymbolTable :=
  let step := fun (state : SymbolTable × Nat) symbol =>
    if state.1.contains symbol then state else (state.1.insert symbol state.2, state.2 + 1)
  (symbols.foldl step (table, firstVariable)).1

end SymbolTable

/-- A symbol that starts with a digit stands for a number. -/
def isNumeric (symbol : String) : Bool :=
  symbol.toList.head?.any Char.isDigit

end HackToolchain.Assembly
