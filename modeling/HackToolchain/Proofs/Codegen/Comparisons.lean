import HackToolchain.Proofs.Codegen.Linking

/-! Comparisons of signed words. A comparison tests the difference of its operands. Where that is no
signed word it wraps and has the opposite sign, and an ordering comes out the wrong way round. -/
namespace HackToolchain.Codegen

open Assembly (Jump At Runs)
open Machine (Word Memory Cpu)
open Vm (Located)

/-- The test that a comparison makes, and what it is to tell of two signed numbers. -/
def comparison? : Vm.ArithmeticOp → Option (Jump × (Int → Int → Bool))
  | .eq => some (.eq, fun x y => x = y)
  | .gt => some (.gt, fun x y => y < x)
  | .lt => some (.lt, fun x y => x < y)
  | _ => none

variable {op : Vm.ArithmeticOp} {test : Jump} {holds : Int → Int → Bool}

theorem arithmetic_eq_comparison (compares : comparison? op = some (test, holds)) (label : Nat) :
    arithmetic label op = comparison label test := by
  cases op with
  | eq | gt | lt =>
    obtain ⟨rfl, _⟩ := Prod.mk.inj (Option.some.inj compares)
    rfl
  | _ => contradiction

theorem toInt_sub_eq (x y : Word) :
    x.ssubOverflow y = false ∧ (x - y).toInt = x.toInt - y.toInt ∨
      x.ssubOverflow y ∧
        (32768 ≤ x.toInt - y.toInt ∧ (x - y).toInt = x.toInt - y.toInt - 65536 ∨
          x.toInt - y.toInt < -32768 ∧ (x - y).toInt = x.toInt - y.toInt + 65536) := by
  have overflow : x.ssubOverflow y = true ↔
      32768 ≤ x.toInt - y.toInt ∨ x.toInt - y.toInt < -32768 := by
    simp [BitVec.ssubOverflow]
  cases decided : x.ssubOverflow y with
  | false =>
    have fits : ¬x.ssubOverflow y := by simp [decided]
    exact .inl ⟨rfl, BitVec.toInt_sub_of_not_ssubOverflow fits⟩
  | true =>
    have outside := overflow.mp decided
    have wrapped := BitVec.toInt_sub (x := x) (y := y)
    have above := BitVec.toInt_lt (x := x)
    have below := BitVec.le_toInt x
    have above' := BitVec.toInt_lt (x := y)
    have below' := BitVec.le_toInt y
    simp only [Int.bmod] at wrapped
    refine .inr ⟨rfl, ?_⟩
    omega

/-- What a test finds in the difference of two words. -/
theorem taken_sub (compares : comparison? op = some (test, holds)) (x y : Word) :
    test.taken (x - y) =
      if op ≠ .eq ∧ x.ssubOverflow y then !holds x.toInt y.toInt else holds x.toInt y.toInt := by
  have above := BitVec.toInt_lt (x := x)
  have below := BitVec.le_toInt x
  have above' := BitVec.toInt_lt (x := y)
  have below' := BitVec.le_toInt y
  have difference := toInt_sub_eq x y
  cases op with
  | eq | gt | lt =>
    obtain ⟨rfl, rfl⟩ := Prod.mk.inj (Option.some.inj compares)
    rw [Jump.taken, Bool.eq_iff_iff]
    rcases difference with ⟨fits, value⟩ | ⟨wraps, ⟨_, value⟩ | ⟨_, value⟩⟩ <;>
      simp [*] <;> omega
  | _ => contradiction

/-- The two words on top of a stack have made way for one. -/
structure Replaced (before after : Memory) (value : Word) : Prop where
  pointer : after.read 0 = before.read 0 - 1
  result : after.read (before.read 0 - 2).toNat = value
  others : ∀ address, address % 32768 ≠ 0 →
    address % 32768 ≠ (before.read 0 - 2).toNat % 32768 → after.read address = before.read address

theorem read_lowered {memory : Memory} {address : Nat} (cell : address % 32768 ≠ 0) :
    (lowered memory).read address = memory.read address := by
  rw [lowered, Memory.read_write, if_neg cell]

theorem pointer_lowered (memory : Memory) : (lowered memory).read 0 = memory.read 0 - 1 := by
  rw [lowered, Memory.read_write, if_pos rfl]

theorem pointer_lowered_lowered (memory : Memory) :
    (lowered (lowered memory)).read 0 = memory.read 0 - 2 := by
  rw [pointer_lowered, pointer_lowered]
  bv_omega

theorem replaced_pushed {memory : Memory} (cell : (memory.read 0 - 2).toNat % 32768 ≠ 0)
    (value : Word) : Replaced memory (pushed (lowered (lowered memory)) value) value := by
  have pointer := pointer_lowered_lowered memory
  constructor
  · rw [pushed, Memory.read_write, if_pos rfl, pointer, Memory.read_write, if_neg (by omega),
      pointer]
    bv_omega
  · rw [pushed, pointer, Memory.read_write, if_neg cell, Memory.read_write, if_pos rfl]
  · intro address free apart
    rw [pushed, pointer, Memory.read_write, if_neg free, Memory.read_write, if_neg apart,
      read_lowered free, read_lowered free]

/-- The code of a comparison, wherever it stands in a program. -/
theorem Linked.runs_comparison {bootstrap : Bool} {commands : List Located}
    {program : List Assembly.Instruction} (linked : Linked bootstrap commands program) {index : Nat}
    {command : Located} (found : commands[index]? = some command)
    (instruction : command.instruction = .arithmetic op)
    (compares : comparison? op = some (test, holds)) {cpu : Cpu}
    (here : cpu.pc = position bootstrap commands index)
    (first : (cpu.ram.read 0 - 2).toNat % 32768 ≠ 0)
    (second : (cpu.ram.read 0 - 1).toNat % 32768 ≠ 0) :
    ∃ steps next, Runs program steps cpu next ∧
      next.pc = position bootstrap commands (index + 1) ∧
      Replaced cpu.ram next.ram (Vm.truth (test.taken
        (cpu.ram.read (cpu.ram.read 0 - 2).toNat - cpu.ram.read (cpu.ram.read 0 - 1).toNat))) := by
  obtain ⟨code, ⟨label, generated⟩, placed, past⟩ := linked.code found
  obtain ⟨layout, laid⟩ := linked.laid
  rw [instruction] at generated
  cases generated
  rw [arithmetic_eq_comparison compares] at placed past
  rw [← here] at placed past
  obtain ⟨steps, d, runs⟩ := Codegen.runs_comparison cpu laid placed
  have x : top (lowered (lowered cpu.ram)) = cpu.ram.read (cpu.ram.read 0 - 2).toNat := by
    rw [top, pointer_lowered_lowered, read_lowered first, read_lowered first]
  have y : top (lowered cpu.ram) = cpu.ram.read (cpu.ram.read 0 - 1).toNat := by
    rw [top, pointer_lowered, read_lowered second]
  rw [x, y] at runs
  exact ⟨steps, _, runs, past.symm, replaced_pushed first _⟩

/-- A comparison in a translated program replaces its operands by the truth about them, unless it is
an ordering and their difference is no signed word. Then it tells the opposite. -/
theorem comparison_tells {bootstrap annotate : Bool} {units : List (String × String)}
    (names : ∀ unit ∈ units, Vm.isSymbol unit.1)
    (translated : (translation bootstrap annotate units).failure? = none)
    (assembled : (machineCode bootstrap annotate units).failure? = none) {index : Nat}
    {command : Located} (found : (located units)[index]? = some command)
    (instruction : command.instruction = .arithmetic op)
    (compares : comparison? op = some (test, holds)) {cpu : Cpu}
    (here : cpu.pc = position bootstrap (located units) index)
    (first : (cpu.ram.read 0 - 2).toNat % 32768 ≠ 0)
    (second : (cpu.ram.read 0 - 1).toNat % 32768 ≠ 0) :
    let x := cpu.ram.read (cpu.ram.read 0 - 2).toNat
    let y := cpu.ram.read (cpu.ram.read 0 - 1).toNat
    ∃ steps next,
      Cpu.run (machineCode bootstrap annotate units).done.toArray steps cpu = (steps, next) ∧
      next.pc = position bootstrap (located units) (index + 1) ∧
      Replaced cpu.ram next.ram (Vm.truth
        (if op ≠ .eq ∧ x.ssubOverflow y then !holds x.toInt y.toInt else holds x.toInt y.toInt)) := by
  intro x y
  obtain ⟨program, linked, same⟩ := exists_linked names translated assembled
  obtain ⟨steps, next, runs, past, replaced⟩ :=
    linked.runs_comparison found instruction compares here first second
  rw [taken_sub compares] at replaced
  exact ⟨steps, next, (same steps cpu).trans runs, past, replaced⟩

/-- A processor that is to start with two words on its stack. -/
def comparing (x y : Word) : Cpu :=
  ⟨0, 0, 0, ((Memory.zero.write 0 258).write 256 x).write 257 y⟩

theorem pointer_comparing (x y : Word) : (comparing x y).ram.read 0 = 258 := by
  simp [comparing, Memory.read_write]

theorem cells_comparing (x y : Word) :
    ((comparing x y).ram.read 0 - 2).toNat = 256 ∧ ((comparing x y).ram.read 0 - 1).toNat = 257 := by
  rw [pointer_comparing]
  decide

theorem operands_comparing (x y : Word) :
    (comparing x y).ram.read 256 = x ∧ (comparing x y).ram.read 257 = y := by
  simp [comparing, Memory.read_write]

theorem Replaced.comparing {x y value : Word} {after : Memory}
    (replaced : Replaced (comparing x y).ram after value) :
    after.read 0 = 257 ∧ after.read 256 = value := by
  have pointer := replaced.pointer
  have result := replaced.result
  rw [pointer_comparing] at pointer
  rw [(cells_comparing x y).1] at result
  exact ⟨pointer, result⟩

theorem comparison_tells_lt :
    (translation false false [("Main", "lt")]).failure? = none ∧
      (machineCode false false [("Main", "lt")]).failure? = none ∧
      ∃ steps next, Cpu.run (machineCode false false [("Main", "lt")]).done.toArray steps
          (comparing 3 5) = (steps, next) ∧
        next.pc = 19 ∧ next.ram.read 0 = 257 ∧ next.ram.read 256 = -1 := by
  have translated : (translation false false [("Main", "lt")]).failure? = none := by decide +kernel
  have assembled : (machineCode false false [("Main", "lt")]).failure? = none := by decide +kernel
  have found : (located [("Main", "lt")])[0]? = some ⟨"Main", "Main", .arithmetic .lt⟩ := by
    decide +kernel
  have past : position false (located [("Main", "lt")]) 1 = 19 := by decide +kernel
  obtain ⟨first, second⟩ := cells_comparing 3 5
  obtain ⟨x, y⟩ := operands_comparing 3 5
  obtain ⟨steps, next, ran, pc, replaced⟩ :=
    comparison_tells (by decide +kernel) translated assembled found rfl rfl
      (show (comparing 3 5).pc = position false (located [("Main", "lt")]) 0 from rfl)
      (by rw [first]; decide) (by rw [second]; decide)
  rw [first, second, x, y] at replaced
  exact ⟨translated, assembled, steps, next, ran, pc.trans past, replaced.comparing⟩

/-- A large number is not told to be greater than a large negative one. -/
theorem greater_missed :
    (translation false false [("Main", "gt")]).failure? = none ∧
      (machineCode false false [("Main", "gt")]).failure? = none ∧
      (-20000 : Word).toInt < (20000 : Word).toInt ∧
      ∃ steps next, Cpu.run (machineCode false false [("Main", "gt")]).done.toArray steps
          (comparing 20000 (-20000)) = (steps, next) ∧
        next.pc = 19 ∧ next.ram.read 0 = 257 ∧ next.ram.read 256 = 0 := by
  have translated : (translation false false [("Main", "gt")]).failure? = none := by decide +kernel
  have assembled : (machineCode false false [("Main", "gt")]).failure? = none := by decide +kernel
  have found : (located [("Main", "gt")])[0]? = some ⟨"Main", "Main", .arithmetic .gt⟩ := by
    decide +kernel
  have past : position false (located [("Main", "gt")]) 1 = 19 := by decide +kernel
  obtain ⟨first, second⟩ := cells_comparing 20000 (-20000)
  obtain ⟨x, y⟩ := operands_comparing 20000 (-20000)
  obtain ⟨program, linked, same⟩ := exists_linked (by decide +kernel) translated assembled
  obtain ⟨steps, next, runs, pc, replaced⟩ := linked.runs_comparison found rfl rfl
    (show (comparing 20000 (-20000)).pc = position false (located [("Main", "gt")]) 0 from rfl)
    (by rw [first]; decide) (by rw [second]; decide)
  rw [first, second, x, y] at replaced
  exact ⟨translated, assembled, by decide, steps, next, (same steps _).trans runs, pc.trans past,
    replaced.comparing⟩

end HackToolchain.Codegen
