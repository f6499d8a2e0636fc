import HackToolchain.Assembly.Symbols
import HackToolchain.Vm.Error

/-! The assembly of each stack-machine instruction. The stack grows upward from the cell that `SP`
points past; `LCL` and `ARG` point into it, `THIS` and `THAT` into the heap. Cells 5 to 12 are the
temp segment, 13 and 14 are scratch. -/
namespace HackToolchain.Codegen

open Assembly (Instruction Operand Operator Jump maxAddress)
open Vm (Segment CodeError)

def toA : Machine.Destination := ⟨true, false, false⟩

def toD : Machine.Destination := ⟨false, true, false⟩

def toM : Machine.Destination := ⟨false, false, true⟩

def nowhere : Machine.Destination := ⟨false, false, false⟩

def constant (value : Nat) : Instruction :=
  .address value.repr

def copy (dest : Machine.Destination) (x : Operand) : Instruction :=
  .compute dest (.unary none x) none

def apply (dest : Machine.Destination) (op : Operator) (x : Operand) : Instruction :=
  .compute dest (.unary (some op) x) none

def combine (dest : Machine.Destination) (x : Operand) (op : Operator) (y : Operand) : Instruction :=
  .compute dest (.binary x op y) none

def jumpIf (label : String) (x : Operand) (jump : Jump) : List Instruction :=
  [.address label, .compute nowhere (.unary none x) (some jump)]

def jumpTo (label : String) : List Instruction :=
  jumpIf label .zero .always

def loadD (symbol : String) : List Instruction :=
  [.address symbol, copy toD .m]

def storeD (symbol : String) : List Instruction :=
  [.address symbol, copy toM .d]

/-- Stores an operand that does not depend on the address register on top of the stack. -/
def push (x : Operand) : List Instruction :=
  [.address "SP", copy toA .m, copy toM x, .address "SP", combine toM .m .plus .one]

/-- Lowers the stack and addresses the cell that was on top. -/
def popToAddress : List Instruction :=
  [.address "SP", combine toM .m .minus .one, copy toA .m]

def popD : List Instruction :=
  popToAddress ++ [copy toD .m]

def trueLabel (n : Nat) : String := "$TRUE." ++ n.repr

def endLabel (n : Nat) : String := "$END." ++ n.repr

def returnLabel (n : Nat) : String := "$RET." ++ n.repr

def unary (op : Operator) : List Instruction :=
  popToAddress ++ [apply toD op .m] ++ push .d

/-- The first operand is in memory when the second is in the data register. -/
def binary (x : Operand) (op : Operator) (y : Operand) : List Instruction :=
  popD ++ popToAddress ++ [combine toD x op y]

/-- Replaces the data register by all ones if it passes the test and by zero otherwise. -/
def truth (whenTrue atEnd : Nat) (test : Jump) : List Instruction :=
  jumpIf (trueLabel whenTrue) .d test ++ [copy toD .zero] ++ jumpTo (endLabel atEnd) ++
    [.label (trueLabel whenTrue), apply toD .minus .one, .label (endLabel atEnd)]

/-- How the cell of a segment is found. -/
inductive Place where
  /-- The index itself. -/
  | literal
  /-- So many cells past the one that a register points to. -/
  | based (register : String)
  /-- A cell with a name of its own. -/
  | named (symbol : String)

/-- Where cell `index` of a segment is. An offset from a register is loaded as a number, so it has to
be an address; temp and pointer have eight and two cells. -/
def place (fileName : String) (segment : Segment) (index : UInt16) : Except CodeError Place :=
  let i := index.toNat
  let within (limit : Nat) (place : Place) :=
    if i < limit then .ok place else .error (.indexOutOfRange segment index)
  match segment with
  | .local => within (maxAddress + 1) (.based "LCL")
  | .argument => within (maxAddress + 1) (.based "ARG")
  | .this => within (maxAddress + 1) (.based "THIS")
  | .that => within (maxAddress + 1) (.based "THAT")
  | .temp => within 8 (.named ("R" ++ (5 + i).repr))
  | .pointer => within 2 (.named (if i = 0 then "THIS" else "THAT"))
  | .static => .ok (.named (fileName ++ "." ++ i.repr))
  | .constant => .ok .literal

def loadBased (index : Nat) (register : String) : List Instruction :=
  [constant index, copy toD .a, .address register, copy toA .m, combine toA .d .plus .a, copy toD .m]

/-- Keeps the address of a cell in scratch, before the stack is lowered. -/
def addressBased (index : Nat) (register : String) : List Instruction :=
  [.address register, copy toD .m, constant index, combine toD .d .plus .a] ++ storeD "R13"

/-- Stores to the cell whose address is kept. -/
def storeKept : List Instruction :=
  [.address "R13", copy toA .m, copy toM .d]

/-- The caller's registers in the order in which a call saves them. -/
def savedRegisters : List String := ["LCL", "ARG", "THIS", "THAT"]

/-- Cells that a call puts on the stack: the return address and the saved registers. -/
def frameSize : Nat := savedRegisters.length + 1

/-- Saves the frame, points `ARG` at the first argument and `LCL` past the frame, and jumps. -/
def call (label : Nat) (function : String) (arguments : Nat) : List Instruction :=
  [.address (returnLabel label), copy toD .a] ++ push .d ++
    savedRegisters.flatMap (fun register => loadD register ++ push .d) ++
    loadD "SP" ++ [constant (arguments + frameSize), combine toD .d .minus .a] ++ storeD "ARG" ++
    loadD "SP" ++ storeD "LCL" ++
    jumpTo function ++ [.label (returnLabel label)]

def zeros (locals : Nat) : List Instruction :=
  (List.replicate locals (push .zero)).flatten

/-- Reads the cell that lies `back` below the frame's end, which is in the data register. -/
def frameCell (back : Nat) : List Instruction :=
  [constant back, combine toA .d .minus .a, copy toD .m]

/-- Keeps the frame's end and the return address in scratch cells, puts the result where the first
argument was, lowers the stack to it, restores the saved registers last to first and jumps back. -/
def leave : List Instruction :=
  loadD "LCL" ++ storeD "R13" ++ frameCell frameSize ++ storeD "R14" ++
    popD ++ [.address "ARG", copy toA .m, copy toM .d] ++
    [.address "ARG", combine toD .m .plus .one] ++ storeD "SP" ++
    (savedRegisters.reverse.zipIdx 1).flatMap (fun (register, back) =>
      loadD "R13" ++ frameCell back ++ storeD register) ++
    [.address "R14", copy toA .m, .compute nowhere (.unary none .zero) (some .always)]

/-- Where the stack starts. -/
def stackBase : Nat := 256

/-- The function that a program starts with. -/
def entryFunction : String := "Sys.init"

/-- Points the stack pointer at the start of the stack. -/
def setStack : List Instruction :=
  [constant stackBase, copy toD .a] ++ storeD "SP"

end HackToolchain.Codegen
