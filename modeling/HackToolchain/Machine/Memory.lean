import HackToolchain.Machine.Alu

/-! Data memory: 32768 words. An address beyond them counts from the start again. -/
namespace HackToolchain.Machine

structure Memory where
  cells : Vector Word 32768

namespace Memory

def zero : Memory := ⟨Vector.replicate 32768 0⟩

def read (memory : Memory) (address : Nat) : Word :=
  memory.cells[Fin.ofNat 32768 address]

def write (memory : Memory) (address : Nat) (value : Word) : Memory :=
  ⟨memory.cells.set (Fin.ofNat 32768 address) value⟩

theorem read_write (memory : Memory) (written : Nat) (value : Word) (address : Nat) :
    (memory.write written value).read address =
      if address % 32768 = written % 32768 then value else memory.read address := by
  simp [read, write, Vector.getElem_set, eq_comm]

end Memory

end HackToolchain.Machine
