import HackToolchain.Machine.Alu

/-! Machine operations and the words they are stored as. A word with a clear top bit loads itself.
Any other word computes: below three bits of no meaning but the first stand, from high to low, the
operand bit, the six control bits, three destination bits and three jump bits. -/
namespace HackToolchain.Machine

/-- The places a result is stored in. -/
structure Destination where
  a : Bool
  d : Bool
  m : Bool
  deriving DecidableEq

/-- The signs of a result for which a jump is taken. -/
structure Condition where
  negative : Bool
  zero : Bool
  positive : Bool
  deriving DecidableEq

def Condition.holds (c : Condition) (result : Word) : Bool :=
  (c.negative && result.toInt < 0) || (c.zero && result.toInt = 0) ||
    (c.positive && 0 < result.toInt)

/-- What a computing word says. The second operand is the addressed memory cell if `fromMemory` and
the address register otherwise. -/
structure Computation where
  fromMemory : Bool
  control : Alu.Control
  dest : Destination
  jump : Condition
  deriving DecidableEq

inductive Operation where
  | load (value : Word)
  | compute (c : Computation)
  deriving DecidableEq

namespace Computation

/-- The word of a computation; the bits without meaning are set. -/
def encode (c : Computation) : Word :=
  BitVec.ofBoolListBE [
    true, true, true, c.fromMemory,
    c.control.zx, c.control.nx, c.control.zy, c.control.ny, c.control.f, c.control.no,
    c.dest.a, c.dest.d, c.dest.m, c.jump.negative, c.jump.zero, c.jump.positive]

def decode (w : Word) : Computation where
  fromMemory := w.getLsbD 12
  control := ⟨w.getLsbD 11, w.getLsbD 10, w.getLsbD 9, w.getLsbD 8, w.getLsbD 7, w.getLsbD 6⟩
  dest := ⟨w.getLsbD 5, w.getLsbD 4, w.getLsbD 3⟩
  jump := ⟨w.getLsbD 2, w.getLsbD 1, w.getLsbD 0⟩

theorem decode_encode (c : Computation) : decode c.encode = c := by
  simp [decode, encode, BitVec.ofBoolListBE, BitVec.getElem_cons]

end Computation

def Operation.decode (w : Word) : Operation :=
  if w.msb then .compute (Computation.decode w) else .load w

end HackToolchain.Machine
