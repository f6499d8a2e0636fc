import HackToolchain.Assembly.Instruction

/-! Control bits for written expressions. The rules are those of the forms that the machine can
compute; any other form gets the bits that the same rules give for it. -/
namespace HackToolchain.Assembly

open Machine (Computation Destination)

namespace Comp

/-- Constants are made from zero inputs; a single register passes through an addition of zero or a
conjunction with all ones on the other input. -/
def unaryControl (op : Option Operator) : Operand → Machine.Alu.Control
  | .zero => ⟨true, false, true, false, true, false⟩
  | .one =>
    let negated := op = some .minus
    ⟨true, true, true, !negated, true, !negated⟩
  | .d => ⟨false, false, true, true, op = some .minus, op = some .minus || op = some .not⟩
  | .a | .m => ⟨true, true, false, false, op = some .minus, op = some .minus || op = some .not⟩

/-- The data register is the first input and the other operand the second, whichever way round they
are written; a literal one replaces the input that is not used. -/
def binaryControl (left : Operand) (op : Operator) (right : Operand) : Machine.Alu.Control :=
  let fromD := left = .d
  let one := right = .one
  match op with
  | .plus =>
    if one then ⟨!fromD, true, fromD, true, true, true⟩
    else ⟨false, false, false, false, true, false⟩
  | .minus =>
    let nx := fromD != one
    ⟨!fromD && one, nx, fromD && one, !nx, true, !one⟩
  | .or => ⟨false, true, false, true, false, true⟩
  | .and | .not => ⟨false, false, false, false, false, false⟩

def control : Comp → Machine.Alu.Control
  | .unary op operand => unaryControl op operand
  | .binary left op right => binaryControl left op right

/-- Whether the second input is the addressed memory cell. -/
def fromMemory : Comp → Bool
  | .unary _ operand => operand = .m
  | .binary left _ right => left = .m || right = .m

end Comp

/-- The computation that a computing instruction is assembled into. -/
def computation (dest : Destination) (comp : Comp) (jump : Option Jump) : Computation where
  fromMemory := comp.fromMemory
  control := comp.control
  dest := dest
  jump := match jump with
    | none => ⟨false, false, false⟩
    | some jump => jump.condition

end HackToolchain.Assembly
