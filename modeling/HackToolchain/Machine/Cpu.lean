import HackToolchain.Machine.Memory
import HackToolchain.Machine.Operation

/-! The processor: two registers, a program counter and data memory. The program is read-only and
kept apart from the state. -/
namespace HackToolchain.Machine

structure Cpu where
  a : Word
  d : Word
  pc : Nat
  ram : Memory

namespace Cpu

def start : Cpu := ⟨0, 0, 0, Memory.zero⟩

/-- Everything is read before anything is stored: memory is written, and a jump goes, where the
address register pointed before. -/
def execute (cpu : Cpu) : Operation → Cpu
  | .load value => { cpu with a := value, pc := cpu.pc + 1 }
  | .compute c =>
    let operand := if c.fromMemory then cpu.ram.read cpu.a.toNat else cpu.a
    let result := c.control.output cpu.d operand
    { a := if c.dest.a then result else cpu.a
      d := if c.dest.d then result else cpu.d
      pc := if c.jump.holds result then cpu.a.toNat else cpu.pc + 1
      ram := if c.dest.m then cpu.ram.write cpu.a.toNat result else cpu.ram }

/-- One operation; none if the program counter is outside the program. -/
def step? (rom : Array Word) (cpu : Cpu) : Option Cpu :=
  rom[cpu.pc]?.map fun word => cpu.execute (.decode word)

/-- Runs at most `limit` operations after the `done` already executed, and counts them. -/
def runFrom (rom : Array Word) (done : Nat) : Nat → Cpu → Nat × Cpu
  | 0, cpu => (done, cpu)
  | limit + 1, cpu =>
    match rom[cpu.pc]? with
    | none => (done, cpu)
    | some word => runFrom rom (done + 1) limit (cpu.execute (.decode word))

/-- Runs until the program counter leaves the program or `limit` operations have been executed. -/
def run (rom : Array Word) (limit : Nat) (cpu : Cpu) : Nat × Cpu :=
  runFrom rom 0 limit cpu

end Cpu

end HackToolchain.Machine
