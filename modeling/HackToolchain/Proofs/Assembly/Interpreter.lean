import HackToolchain.Machine.Cpu
import HackToolchain.Proofs.Assembly.Resolution

/-! Running assembly without encoding it. Expressions are evaluated as they are written, labels are
passed over, and symbols stand for the addresses that the instruction list gives them. Machine code
does step for step what its assembly does, if only documented expressions are used and every address
can be loaded. -/
namespace HackToolchain.Assembly

open Machine (Word Memory Cpu)

def Operand.value (a d m : Word) : Operand → Word
  | .zero => 0
  | .one => 1
  | .a => a
  | .d => d
  | .m => m

/-- Wrapping arithmetic on words. Operators where no text can have them are passed over. -/
def Comp.value (a d m : Word) : Comp → Word
  | .unary (some .minus) x => -x.value a d m
  | .unary (some .not) x => ~~~x.value a d m
  | .unary _ x => x.value a d m
  | .binary x .plus y => x.value a d m + y.value a d m
  | .binary x .minus y => x.value a d m - y.value a d m
  | .binary x .and y => x.value a d m &&& y.value a d m
  | .binary x .or y => x.value a d m ||| y.value a d m
  | .binary x .not _ => x.value a d m

/-- The expressions that the machine is documented to compute. -/
def documented : List Comp := [
  .unary none .zero, .unary none .one, .unary (some .minus) .one,
  .unary none .d, .unary none .a, .unary none .m,
  .unary (some .not) .d, .unary (some .not) .a, .unary (some .not) .m,
  .unary (some .minus) .d, .unary (some .minus) .a, .unary (some .minus) .m,
  .binary .d .plus .one, .binary .a .plus .one, .binary .m .plus .one,
  .binary .d .minus .one, .binary .a .minus .one, .binary .m .minus .one,
  .binary .d .plus .a, .binary .d .plus .m,
  .binary .d .minus .a, .binary .d .minus .m, .binary .a .minus .d, .binary .m .minus .d,
  .binary .d .and .a, .binary .d .and .m, .binary .d .or .a, .binary .d .or .m]

def Jump.taken (result : Word) : Jump → Bool
  | .gt => 0 < result.toInt
  | .eq => result.toInt = 0
  | .ge => 0 ≤ result.toInt
  | .lt => result.toInt < 0
  | .ne => result.toInt ≠ 0
  | .le => result.toInt ≤ 0
  | .always => true

/-- The effect of one instruction of a program. The counter says how many words come before the next
instruction, so a label leaves it alone. -/
def execute (program : List Instruction) (cpu : Cpu) : Instruction → Cpu
  | .address symbol =>
    { cpu with a := BitVec.ofNat 16 (addressOf program symbol), pc := cpu.pc + 1 }
  | .compute dest comp jump =>
    let result := comp.value cpu.a cpu.d (cpu.ram.read cpu.a.toNat)
    { a := if dest.a then result else cpu.a
      d := if dest.d then result else cpu.d
      pc := if jump.any (·.taken result) then cpu.a.toNat else cpu.pc + 1
      ram := if dest.m then cpu.ram.write cpu.a.toNat result else cpu.ram }
  | .label _ => cpu

/-- Runs until the counter leaves the program or `limit` instructions have been executed, and counts
them. -/
def interpret (program : List Instruction) : Nat → Cpu → Nat × Cpu
  | 0, cpu => (0, cpu)
  | limit + 1, cpu =>
    match (executable program)[cpu.pc]? with
    | none => (0, cpu)
    | some i =>
      let (done, cpu) := interpret program limit (execute program cpu i)
      (done + 1, cpu)

@[simp] theorem and_ones (x : Word) : x &&& 65535#16 = x :=
  BitVec.and_allOnes

@[simp] theorem ones_and (x : Word) : 65535#16 &&& x = x :=
  BitVec.allOnes_and

@[simp] theorem not_and_not (x y : Word) : ~~~(~~~x &&& ~~~y) = x ||| y := by
  ext i bound
  simp

/-- The control bits of a documented expression make the machine compute it. -/
theorem documented_output {comp : Comp} (member : comp ∈ documented) (a d m : Word) :
    comp.control.output d (if comp.fromMemory then m else a) = comp.value a d m := by
  revert comp
  simp only [documented, List.forall_mem_cons, List.not_mem_nil, false_imp_iff, implies_true,
    and_true, Comp.control, Comp.unaryControl, Comp.binaryControl, Machine.Alu.Control.output,
    Machine.Alu.prepared, Comp.fromMemory, Comp.value, Operand.value]
  refine ⟨?_, ?_, ?_, ?_, ?_, ?_, ?_, ?_, ?_, ?_, ?_, ?_, ?_, ?_, ?_, ?_, ?_, ?_, ?_, ?_, ?_, ?_,
    ?_, ?_, ?_, ?_, ?_, ?_⟩
  all_goals simp
  all_goals bv_omega

theorem condition_holds (jump : Jump) (result : Word) :
    jump.condition.holds result = jump.taken result := by
  rw [Bool.eq_iff_iff]
  cases jump <;> simp [Jump.condition, Machine.Condition.holds, Jump.taken] <;> omega

theorem computation_holds (dest : Machine.Destination) (comp : Comp) (jump : Option Jump)
    (result : Word) :
    (computation dest comp jump).jump.holds result = jump.any (·.taken result) := by
  cases jump with
  | none => simp [computation, Machine.Condition.holds]
  | some jump => exact condition_holds jump result

theorem decode_encode_compute (c : Machine.Computation) :
    Machine.Operation.decode c.encode = .compute c := by
  have computing : c.encode.msb = true := by
    simp [Machine.Computation.encode, BitVec.ofBoolListBE, BitVec.msb_cons]
  rw [Machine.Operation.decode, if_pos computing, Machine.Computation.decode_encode]

theorem decode_load {word : Word} (small : word.toNat ≤ maxAddress) :
    Machine.Operation.decode word = .load word := by
  have clear : word.msb = false := by
    simp only [maxAddress] at small
    rw [BitVec.msb_eq_decide, decide_eq_false_iff_not]
    omega
  rw [Machine.Operation.decode, clear]
  rfl

/-- The symbols of a program stand for addresses that a word can load. -/
def Loadable (program : List Instruction) : Prop :=
  ∀ symbol, .address symbol ∈ program → addressOf program symbol ≤ maxAddress

/-- A program computes nothing but documented expressions. -/
def Documented (program : List Instruction) : Prop :=
  ∀ dest comp jump, .compute dest comp jump ∈ program → comp ∈ documented

section Simulation

variable {program : List Instruction} {i : Instruction} {word : Word} {words : List Word}

theorem execute_compute (c : Machine.Computation) (cpu : Cpu) {result : Word}
    (computed : c.control.output cpu.d
      (if c.fromMemory then cpu.ram.read cpu.a.toNat else cpu.a) = result) :
    cpu.execute (.compute c) =
      { a := if c.dest.a then result else cpu.a
        d := if c.dest.d then result else cpu.d
        pc := if c.jump.holds result then cpu.a.toNat else cpu.pc + 1
        ram := if c.dest.m then cpu.ram.write cpu.a.toNat result else cpu.ram } := by
  rw [← computed]
  rfl

theorem execute_decode (loadable : Loadable program) (plain : Documented program)
    (member : i ∈ program) (emits : Emits program i word) (cpu : Cpu) :
    cpu.execute (.decode word) = execute program cpu i := by
  cases i with
  | label symbol => contradiction
  | address symbol =>
    have value : word = BitVec.ofNat 16 (addressOf program symbol) := by
      rw [← show word.toNat = addressOf program symbol from emits, BitVec.ofNat_toNat]
      simp
    rw [decode_load (emits ▸ loadable symbol member)]
    simp [Cpu.execute, execute, value]
  | compute dest comp jump =>
    have result := documented_output (plain dest comp jump member) cpu.a cpu.d
      (cpu.ram.read cpu.a.toNat)
    rw [show word = (computation dest comp jump).encode from emits, decode_encode_compute,
      execute_compute _ cpu result, computation_holds]
    rfl

theorem runFrom_eq_interpret (loadable : Loadable program) (plain : Documented program)
    (emitted : List.Forall₂ (Emits program) (executable program) words) (done limit : Nat)
    (cpu : Cpu) : Cpu.runFrom words.toArray done limit cpu =
      (done + (interpret program limit cpu).1, (interpret program limit cpu).2) := by
  induction limit generalizing done cpu with
  | zero => rfl
  | succ limit ih =>
    rw [Cpu.runFrom, interpret, List.getElem?_toArray]
    cases fetched : (executable program)[cpu.pc]? with
    | none =>
      have outside := emitted.length_eq ▸ List.getElem?_eq_none_iff.mp fetched
      rw [List.getElem?_eq_none outside]
      rfl
    | some i =>
      obtain ⟨word, found, emits⟩ := exists_related_getElem? emitted fetched
      have same := execute_decode loadable plain
        (mem_of_mem_executable (List.mem_of_getElem? fetched)) emits cpu
      simp only [found, same, ih, Nat.add_assoc, Nat.add_comm 1]

end Simulation

/-- How many variables there are addresses for. -/
def variableCapacity : Nat := maxAddress + 1 - firstVariable

section Capacity

variable {program : List Instruction} {symbol : String}

theorem mem_variableUses : symbol ∈ variableUses program ↔
    .address symbol ∈ program ∧ isNumeric symbol = false ∧
      fixedAddress? program symbol = none := by
  have named (i : Instruction) : i.symbolic? = some symbol ↔
      i = .address symbol ∧ isNumeric symbol = false := by
    cases i with
    | address other =>
      cases numeric : isNumeric other <;> simp [Instruction.symbolic?, numeric]
      · rintro rfl
        exact numeric
      · rintro rfl
        exact numeric
    | compute | label => simp [Instruction.symbolic?]
  simp [variableUses, List.mem_filter, List.mem_filterMap, named, and_assoc]

variable {layout : Layout} (laid : Layout.ofInstructions program = .ok layout)
  (numbers : ∀ i ∈ executable program, i.outOfRange = false)

include laid numbers

/-- Only a variable can have an address that is too large, if too many others come before it. -/
theorem addressOf_le_iff (member : .address symbol ∈ program) :
    addressOf program symbol ≤ maxAddress ↔
      (symbol ∈ variableUses program → variablesBefore program symbol < variableCapacity) := by
  rw [mem_variableUses, addressOf]
  cases numeric : isNumeric symbol with
  | true =>
    have inRange := numbers _ (List.mem_filter.mpr ⟨member, rfl⟩)
    simp only [Instruction.outOfRange, outOfRange, numeric, Bool.true_and, Bool.not_eq_false',
      Bool.and_eq_true, decide_eq_true_eq] at inRange
    simp [inRange.2]
  | false =>
    cases fixed : fixedAddress? program symbol with
    | some address => simp [Layout.fixedAddress?_le laid fixed]
    | none =>
      simp only [Bool.false_eq_true, if_false, Option.getD_none, member, true_and, true_imp_iff,
        firstVariable, maxAddress, variableCapacity]
      omega

theorem loadable_iff :
    Loadable program ↔ (variableUses program).eraseDups.length ≤ variableCapacity := by
  have place (symbol : String) :
      (variableUses program).eraseDups.idxOf symbol = variablesBefore program symbol :=
    idxOf_eraseDups _ symbol
  simp only [← idxOf_eraseDups_lt_iff, place]
  constructor
  · intro loadable symbol used
    have member := (mem_variableUses.mp used).1
    exact (addressOf_le_iff laid numbers member).mp (loadable symbol member) used
  · intro low symbol member
    exact (addressOf_le_iff laid numbers member).mpr (low symbol)

/-- Variables cannot outgrow memory if no more than half of the words can stand for one. -/
theorem loadable_of_sparse
    (sparse : 2 * (program.filterMap Instruction.symbolic?).length ≤ (executable program).length) :
    Loadable program := by
  rw [loadable_iff laid numbers]
  have words := Layout.length_executable_le laid
  calc (variableUses program).eraseDups.length
    _ ≤ (variableUses program).length := length_eraseDups_le _
    _ ≤ (program.filterMap Instruction.symbolic?).length := List.length_filter_le ..
    _ ≤ variableCapacity := by
      simp only [maxAddress, variableCapacity, firstVariable] at words ⊢
      omega

end Capacity

/-- Machine code does what its assembly says, however long both run and wherever they start. -/
theorem run_assembled {source : List Char} {program : List Instruction}
    (assembled : (assemble source).failure? = none) (parsed : parse source = .ok program)
    (plain : Documented program) (loadable : Loadable program) (limit : Nat) (cpu : Cpu) :
    Cpu.run (assemble source).done.toArray limit cpu = interpret program limit cpu := by
  obtain ⟨layout, _, _, emitted⟩ := exists_layout parsed assembled
  rw [Cpu.run, runFrom_eq_interpret loadable plain emitted, Nat.zero_add]

/-- Counts a variable down. -/
def countdown : List Instruction :=
  [.label "LOOP", .address "x", .compute ⟨true, true, true⟩ (.binary .m .minus .one) none,
    .address "LOOP", .compute ⟨false, false, false⟩ (.unary none .d) (some .gt)]

theorem run_assembled_countdown :
    parse "(LOOP)\n@x\nAMD=M-1\n@LOOP\nD;JGT".toList = .ok countdown ∧
      Cpu.run (assemble "(LOOP)\n@x\nAMD=M-1\n@LOOP\nD;JGT".toList).done.toArray 9
          ⟨0, 0, 0, Memory.zero.write 16 3⟩ =
        interpret countdown 9 ⟨0, 0, 0, Memory.zero.write 16 3⟩ := by
  have parsed : parse "(LOOP)\n@x\nAMD=M-1\n@LOOP\nD;JGT".toList = .ok countdown := by
    decide +kernel
  have plain : Documented countdown := by
    intro dest comp jump member
    simp only [countdown, List.mem_cons, List.not_mem_nil, reduceCtorEq, false_or, or_false,
      Instruction.compute.injEq] at member
    rcases member with ⟨_, rfl, _⟩ | ⟨_, rfl, _⟩ <;> decide
  have loadable : Loadable countdown := by
    have all : ∀ symbol ∈ ["x", "LOOP"], addressOf countdown symbol ≤ maxAddress := by
      decide +kernel
    simpa [Loadable, countdown] using all
  exact ⟨parsed, run_assembled (by decide +kernel) parsed plain loadable 9 _⟩

end HackToolchain.Assembly
