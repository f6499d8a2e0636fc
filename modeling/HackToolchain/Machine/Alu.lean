/-! The arithmetic unit: six control bits prepare two 16-bit inputs, combine them and finish the
result. -/
namespace HackToolchain.Machine

/-- The unit of data: read as a signed number in arithmetic and as an unsigned one in addresses. -/
abbrev Word := BitVec 16

namespace Alu

/-- What happens to the inputs `x` and `y` and to the output. -/
structure Control where
  /-- Take zero for `x`. -/
  zx : Bool
  /-- Then complement `x`. -/
  nx : Bool
  /-- Take zero for `y`. -/
  zy : Bool
  /-- Then complement `y`. -/
  ny : Bool
  /-- Add; otherwise combine bit by bit with "and". -/
  f : Bool
  /-- Complement the output. -/
  no : Bool
  deriving DecidableEq

/-- One input after its zero and complement bits. -/
def prepared (zero complement : Bool) (input : Word) : Word :=
  let kept := if zero then 0 else input
  if complement then ~~~kept else kept

def Control.output (c : Control) (x y : Word) : Word :=
  let x := prepared c.zx c.nx x
  let y := prepared c.zy c.ny y
  let combined := if c.f then x + y else x &&& y
  if c.no then ~~~combined else combined

end Alu

end HackToolchain.Machine
