import HackToolchain.Machine.Operation

/-! Assembly instructions and how they are written. -/
namespace HackToolchain.Assembly

open Machine (Destination Condition)

inductive Operand where
  | zero
  | one
  | a
  | d
  | m
  deriving DecidableEq

inductive Operator where
  | plus
  | minus
  | and
  | or
  | not
  deriving DecidableEq

/-- A written expression. More can be written than the machine can compute. -/
inductive Comp where
  | unary (op : Option Operator) (operand : Operand)
  | binary (left : Operand) (op : Operator) (right : Operand)
  deriving DecidableEq

inductive Jump where
  | gt
  | eq
  | ge
  | lt
  | ne
  | le
  | always
  deriving DecidableEq

inductive Instruction where
  | address (symbol : String)
  | compute (dest : Destination) (comp : Comp) (jump : Option Jump)
  | label (symbol : String)
  deriving DecidableEq

namespace Operand

def all : List Operand := [.zero, .one, .a, .d, .m]

def char : Operand → Char
  | .zero => '0'
  | .one => '1'
  | .a => 'A'
  | .d => 'D'
  | .m => 'M'

def ofChar? (c : Char) : Option Operand :=
  all.find? (·.char = c)

end Operand

namespace Operator

def all : List Operator := [.plus, .minus, .and, .or, .not]

def char : Operator → Char
  | .plus => '+'
  | .minus => '-'
  | .and => '&'
  | .or => '|'
  | .not => '!'

def ofChar? (c : Char) : Option Operator :=
  all.find? (·.char = c)

end Operator

namespace Comp

def chars : Comp → List Char
  | .unary none operand => [operand.char]
  | .unary (some op) operand => [op.char, operand.char]
  | .binary left op right => [left.char, op.char, right.char]

end Comp

namespace Jump

def all : List Jump := [.gt, .eq, .ge, .lt, .ne, .le, .always]

def name : Jump → String
  | .gt => "JGT"
  | .eq => "JEQ"
  | .ge => "JGE"
  | .lt => "JLT"
  | .ne => "JNE"
  | .le => "JLE"
  | .always => "JMP"

def ofName? (word : String) : Option Jump :=
  all.find? (·.name = word)

def condition : Jump → Condition
  | .gt => ⟨false, false, true⟩
  | .eq => ⟨false, true, false⟩
  | .ge => ⟨false, true, true⟩
  | .lt => ⟨true, false, false⟩
  | .ne => ⟨true, false, true⟩
  | .le => ⟨true, true, false⟩
  | .always => ⟨true, true, true⟩

end Jump

/-- The letters of the places stored to, in alphabetical order. -/
def destinationLetters (dest : Destination) : List Char :=
  [('A', dest.a), ('D', dest.d), ('M', dest.m)].filterMap fun (letter, stored) =>
    if stored then some letter else none

namespace Instruction

/-- The written form in the pieces in which it is sent out. -/
def pieces : Instruction → List String
  | .address symbol => ["@", symbol]
  | .label symbol => ["(", symbol, ")"]
  | .compute dest comp jump =>
    let letters := destinationLetters dest
    let target := if letters = [] then [] else letters ++ ['=']
    let branch := match jump with
      | none => []
      | some jump => [";", jump.name]
    (target ++ comp.chars).map String.singleton ++ branch

def text (i : Instruction) : String :=
  String.join i.pieces

end Instruction

end HackToolchain.Assembly
