import HackToolchain.Proofs.Codegen.Acceptance
import HackToolchain.Proofs.Codegen.Joining
import HackToolchain.Proofs.Codegen.StaticCells
import HackToolchain.Proofs.Codegen.Simulation
import HackToolchain.Proofs.Vm.Printing

/-! Statics and the stack. Statics lie from cell 16 on and the stack from cell 256 on, and nothing
keeps the first from growing into the second: there is room for 240 statics. -/
namespace HackToolchain.Codegen

open Assembly (Instruction At Emits executable executeAll interpret)
open Machine (Word Memory Cpu)
open Vm (Located staticUses staticAddress)

/-- A static's cell is its place in the list of the statics used. -/
theorem staticAddress_eq (commands : List Located) (use : String × UInt16) :
    staticAddress commands use.1 use.2 = 16 + (staticUses commands).eraseDups.idxOf use := by
  rw [Assembly.idxOf_eraseDups]
  rfl

theorem statics_low_iff (commands : List Located) :
    (∀ use ∈ staticUses commands, 16 ≤ staticAddress commands use.1 use.2 ∧
      staticAddress commands use.1 use.2 < stackBase) ↔
      (staticUses commands).eraseDups.length ≤ 240 := by
  rw [← Assembly.idxOf_eraseDups_lt_iff]
  simp only [staticAddress_eq, stackBase]
  constructor
  · intro low use used
    have := (low use used).2
    omega
  · intro few use used
    have := few use used
    omega

/-- A push changes the stack pointer and the cell that it points to. -/
theorem read_pushed {memory : Memory} {value : Word} {address : Nat} (positive : 0 < address)
    (low : address < stackBase) (stack : stackBase ≤ (memory.read 0).toNat % 32768) :
    (pushed memory value).read address = memory.read address := by
  simp only [stackBase] at low stack
  rw [pushed, Memory.read_write, if_neg (by omega), Memory.read_write, if_neg (by omega)]

theorem executeAll_push (program : List Instruction) (cpu : Cpu) {x : Assembly.Operand}
    (kind : x = .d ∨ x = .zero) :
    ∃ value, executeAll program (push x) cpu = ⟨0, cpu.d, cpu.pc + 5, pushed cpu.ram value⟩ := by
  rcases kind with rfl | rfl
  · exact ⟨cpu.d, executeAll_push_d program cpu⟩
  · exact ⟨0, executeAll_push_zero program cpu⟩

namespace Linked

variable {bootstrap : Bool} {commands : List Located} {program : List Instruction}

theorem documented (linked : Linked bootstrap commands program) : Assembly.Documented program := by
  obtain ⟨codes, generates, rfl⟩ := linked.generated
  exact (wellFormed_program generates linked.legal).documented

theorem run_eq (linked : Linked bootstrap commands program) {words : List Word}
    (emitted : List.Forall₂ (Emits program) (executable program) words) (limit : Nat) (cpu : Cpu) :
    Cpu.run words.toArray limit cpu = interpret program limit cpu := by
  rw [Cpu.run, Assembly.runFrom_eq_interpret linked.loadable linked.documented emitted,
    Nat.zero_add]

/-- The first push of a program saves the return address of the function that it starts with. -/
theorem first_push (linked : Linked true commands program) : At program 6 (push .d) := by
  have split : (prologue true).take 6 ++ (push .d ++ (prologue true).drop 11) = prologue true := by
    decide
  have start := linked.start
  rw [← split] at start
  have length : 0 + (executable ((prologue true).take 6)).length = 6 := by decide
  exact length ▸ start.right.left

/-- What the five words of a push do. -/
theorem runs_push (linked : Linked bootstrap commands program) {words : List Word}
    (emitted : List.Forall₂ (Emits program) (executable program) words) (x : Assembly.Operand)
    {cpu : Cpu} (placed : At program cpu.pc (push x)) :
    Cpu.run words.toArray 5 cpu = (5, executeAll program (push x) cpu) := by
  have straight : (push x).all Instruction.straight := rfl
  exact (linked.run_eq emitted 5 cpu).trans (Assembly.runs_straight cpu placed straight).1

end Linked

/-- A program's statics lie below its stack exactly if they are 240 at most. Then no push changes
one, wherever it stands in the code, as long as the stack pointer points to a cell of the stack. -/
theorem statics_below_stack {annotate : Bool} {units : List (String × String)}
    (names : ∀ unit ∈ units, Vm.isSymbol unit.1)
    (translated : (translation true annotate units).failure? = none)
    (assembled : (machineCode true annotate units).failure? = none)
    (complete : Complete true (located units)) (apart : Apart (located units)) :
    let commands := located units
    let program := (translation true annotate units).writer.sink.code
    let words := (machineCode true annotate units).done
    let cell := fun use : String × UInt16 => staticAddress commands use.1 use.2
    (∀ index command use, commands[index]? = some command → command.static? = some use →
      ∃ offset dest x, staticAccess? command.instruction = some (offset, dest, x) ∧
        words[position true commands index + offset]? = some (BitVec.ofNat 16 (cell use))) ∧
    ((∀ use ∈ staticUses commands, 16 ≤ cell use ∧ cell use < stackBase) ↔
      (staticUses commands).eraseDups.length ≤ 240) ∧
    ((staticUses commands).eraseDups.length ≤ 240 →
      ∀ x cpu, x = .d ∨ x = .zero → At program cpu.pc (push x) →
        stackBase ≤ (cpu.ram.read 0).toNat % 32768 →
        ∃ next, Cpu.run words.toArray 5 cpu = (5, next) ∧
          ∀ use ∈ staticUses commands, next.ram.read (cell use) = cpu.ram.read (cell use)) := by
  intro commands program words cell
  obtain ⟨linked, emitted⟩ := linked_translation names translated assembled
  refine ⟨?_, statics_low_iff commands, ?_⟩
  · intro index command use found uses
    obtain ⟨offset, dest, x, access, loads, _⟩ := linked.static_words emitted found uses
    have used : use ∈ staticUses commands :=
      List.mem_filterMap.mpr ⟨command, List.mem_of_getElem? found, uses⟩
    rw [linked.addressOf_static complete apart used] at loads
    exact ⟨offset, dest, x, access, loads⟩
  · intro few x cpu kind placed stack
    obtain ⟨value, effect⟩ := executeAll_push program cpu kind
    have ran := linked.runs_push emitted x placed
    rw [effect] at ran
    refine ⟨_, ran, fun use used => ?_⟩
    obtain ⟨first, low⟩ := (statics_low_iff commands).mpr few use used
    exact read_pushed (Nat.lt_of_lt_of_le (by decide) first) low stack

/-- No static of a small program is in the way of its stack. -/
theorem statics_below_stack_storeSeven :
    staticAddress (located storeSeven) "Sys" 0 < stackBase ∧
      ∃ next, Cpu.run (machineCode true false storeSeven).done.toArray 5
          ⟨0, 1, 6, Memory.zero.write 0 256⟩ = (5, next) ∧
        next.ram.read (staticAddress (located storeSeven) "Sys" 0) =
          (Memory.zero.write 0 256).read (staticAddress (located storeSeven) "Sys" 0) := by
  have translated : (translation true false storeSeven).failure? = none := by decide +kernel
  have assembled : (machineCode true false storeSeven).failure? = none := by decide +kernel
  have complete : Complete true (located storeSeven) := ⟨by decide +kernel, by decide +kernel⟩
  obtain ⟨_, low, pushes⟩ := statics_below_stack (by decide +kernel) translated assembled complete
    (by decide +kernel)
  have few : (staticUses (located storeSeven)).eraseDups.length ≤ 240 := by decide +kernel
  have used : ("Sys", 0) ∈ staticUses (located storeSeven) := by decide +kernel
  have program := (linked_translation (by decide +kernel) translated assembled).1.first_push
  have stack : stackBase ≤ ((Memory.zero.write 0 256).read 0).toNat % 32768 := by
    rw [Memory.read_write]
    decide
  obtain ⟨next, ran, kept⟩ := pushes few .d ⟨0, 1, 6, Memory.zero.write 0 256⟩ (.inl rfl) program
    stack
  exact ⟨(low.mpr few ("Sys", 0) used).2, next, ran, kept ("Sys", 0) used⟩

/-- A program that uses statics one after the other, each command on a line of its own. -/
def usesOf (indices : List UInt16) : List (String × String) :=
  [("Sys", Vm.printed (.function "Sys.init" 0 :: indices.map (.push .static)))]

section Crowded

variable (indices : List UInt16)

theorem unitInstructions_usesOf :
    unitInstructions (Vm.printed (.function "Sys.init" 0 :: indices.map (.push .static))) =
      ⟨.function "Sys.init" 0 :: indices.map (.push .static), none⟩ := by
  apply unitInstructions_printed
  rw [List.forall_mem_cons, List.forall_mem_map]
  exact ⟨(by decide : Vm.isSymbol "Sys.init"), fun _ _ => trivial⟩

theorem command_pushStatic {w : Writer} (unlimited : w.sink.room? = none) (index : UInt16) :
    (w.command (.push .static index)).failure? = none ∧
      (w.command (.push .static index)).writer.sink.room? = none := by
  have effect := Writer.effect_perform unlimited (.command (.push .static index))
  have kept := effect.unlimited unlimited
  rw [Writer.perform] at effect kept
  refine ⟨?_, kept⟩
  generalize w.command (.push .static index) = o at effect
  cases effect with
  | written => rfl
  | refused given failed =>
    obtain rfl := Option.some.inj given
    contradiction

theorem commands_pushStatics {w : Writer} (unlimited : w.sink.room? = none) :
    (w.commands (indices.map (.push .static))).failure? = none := by
  induction indices generalizing w with
  | nil => rfl
  | cons index rest ih =>
    obtain ⟨fine, kept⟩ := command_pushStatic unlimited index
    rw [List.map_cons, Writer.commands_cons, Outcome.andThen, fine]
    exact ih kept

theorem translated_usesOf : (translation true false (usesOf indices)).failure? = none := by
  let w := ((Writer.new .unlimited false).bootstrap).writer.setFileName "Sys"
  have started : ((Writer.new .unlimited false).bootstrap).failure? = none := by decide +kernel
  have entered : (w.command (.function "Sys.init" 0)).failure? = none := by decide +kernel
  have unlimited : (w.command (.function "Sys.init" 0)).writer.sink.room? = none := by
    decide +kernel
  have written : (w.commands (.function "Sys.init" 0 :: indices.map (.push .static))).failure? =
      none := by
    rw [Writer.commands_cons, Outcome.andThen, entered]
    exact commands_pushStatics indices unlimited
  have unit :
      (w.unit (Vm.printed (.function "Sys.init" 0 :: indices.map (.push .static)))).failure? =
        none := by
    rw [Writer.unit, unitInstructions_usesOf, Outcome.andThen, written]
  rw [translation, if_pos rfl, Outcome.andThen, started]
  dsimp only
  rw [usesOf, Writer.units_cons, Outcome.andThen, unit]
  rfl

theorem located_usesOf : located (usesOf indices) =
    ⟨"Sys", "Sys.init", .function "Sys.init" 0⟩ ::
      indices.map fun index => ⟨"Sys", "Sys.init", .push .static index⟩ := by
  have rest : Vm.locate (some "Sys.init")
      ((indices.map (.push .static)).map fun i => ("Sys", i)) =
        indices.map fun index => ⟨"Sys", "Sys.init", .push .static index⟩ := by
    induction indices with
    | nil => rfl
    | cons index others ih => exact congrArg (List.cons _) ih
  rw [located, usesOf, commandsOf, List.flatMap_singleton, unitInstructions_usesOf, List.map_cons,
    Vm.locate, ← rest]
  rfl

theorem staticUses_usesOf :
    staticUses (located (usesOf indices)) = indices.map fun index => ("Sys", index) := by
  rw [located_usesOf, staticUses, List.filterMap_cons, List.filterMap_map]
  exact congrFun List.filterMap_eq_map indices

theorem complete_usesOf : Complete true (located (usesOf indices)) := by
  rw [located_usesOf]
  constructor
  · intro _
    rw [Vm.functionIndex?, List.findIdx?_cons]
    rfl
  · rw [List.forall_mem_cons, List.forall_mem_map]
    exact ⟨trivial, fun _ _ => trivial⟩

theorem apart_usesOf : Apart (located (usesOf indices)) := by
  intro command member use used
  rw [located_usesOf, List.mem_cons, List.mem_map] at member
  rcases member with rfl | ⟨index, _, rfl⟩
  · simpa [Vm.Instruction.isFunction, entryFunction] using entryFunction_ne_static use
  · simp [Vm.Instruction.isFunction]

/-- A use of a static takes seven words. -/
theorem assembled_usesOf (short : indices.length < 4000) :
    (machineCode true false (usesOf indices)).failure? = none := by
  have names : ∀ unit ∈ usesOf indices, Vm.isSymbol unit.1 :=
    List.forall_mem_singleton.mpr (by decide : Vm.isSymbol "Sys")
  have translated := translated_usesOf indices
  have functions : functionNames (located (usesOf indices)) = ["Sys.init"] := by
    rw [located_usesOf, functionNames, List.filterMap_cons, List.filterMap_map]
    exact congrArg (List.cons _) (List.filterMap_eq_nil_iff.mpr fun _ _ => rfl)
  have known : ∀ name ∈ functionNames (located (usesOf indices)),
      Assembly.predefined.lookup name = none := by
    rw [functions]
    decide +kernel
  cases outcome : (machineCode true false (usesOf indices)).failure? with
  | none => rfl
  | some e =>
    obtain ⟨_, before, i, after, split, many⟩ :=
      (machineCode_failure names translated known).mp outcome
    obtain ⟨codes, generates, written⟩ := code_translation names translated
    have length : (executable codes.flatten).length = indices.length * 7 := by
      have sizes : (located (usesOf indices)).map (fun command => size command.instruction) =
          0 :: indices.map fun _ => 7 := by
        rw [located_usesOf, List.map_cons, List.map_map]
        rfl
      rw [length_codes generates, sizes, List.sum_cons, List.map_const', List.sum_replicate]
      exact Nat.zero_add _
    have start : (executable (prologue true)).length < 100 := by decide
    rw [split] at written
    have words := congrArg (fun code => (executable code).length) written
    simp only [Assembly.executable_append, List.length_append, length] at words
    simp only [Assembly.maxAddress] at many
    omega

theorem staticAddress_usesOf (nodup : indices.Nodup) {count : Nat} (bound : count < indices.length) :
    staticAddress (located (usesOf indices)) "Sys" indices[count] = 16 + count := by
  have statics : (indices.map fun index => ("Sys", index)).Nodup :=
    nodup.map fun _ _ same => (Prod.mk.inj same).2
  have place := statics.idxOf_getElem count (by rwa [List.length_map])
  rw [List.getElem_map] at place
  have cell := staticAddress_eq (located (usesOf indices)) ("Sys", indices[count])
  rw [cell, staticUses_usesOf, Assembly.eraseDups_of_nodup statics, place]

end Crowded

/-- One static more than there is room for. -/
def crowded : List (String × String) :=
  usesOf ((List.range 241).map .ofNat)

/-- The last static's cell is where the stack starts. The return address of the first function, which
is the first thing on the stack, overwrites it. -/
theorem statics_reach_stack :
    let commands := located crowded
    let words := (machineCode true false crowded).done
    ((∀ unit ∈ crowded, Vm.isSymbol unit.1) ∧
      (translation true false crowded).failure? = none ∧
      (machineCode true false crowded).failure? = none ∧
      Complete true commands ∧ Apart commands) ∧
    ("Sys", 240) ∈ staticUses commands ∧ staticAddress commands "Sys" 240 = stackBase ∧
    ∃ cpu next, (cpu.ram.read 0).toNat = stackBase ∧ Cpu.run words.toArray 5 cpu = (5, next) ∧
      next.ram.read (staticAddress commands "Sys" 240) ≠
        cpu.ram.read (staticAddress commands "Sys" 240) := by
  intro commands words
  let indices : List UInt16 := (List.range 241).map .ofNat
  have many : indices.length = 241 := by simp [indices]
  have last : indices[240] = 240 := by simp [indices]
  have nodup : indices.Nodup := by
    refine List.nodup_range.map_on fun first low second low' same => ?_
    rw [List.mem_range] at low low'
    have numbers := congrArg UInt16.toNat same
    rwa [UInt16.toNat_ofNat', UInt16.toNat_ofNat', Nat.mod_eq_of_lt (by omega),
      Nat.mod_eq_of_lt (by omega)] at numbers
  have names : ∀ unit ∈ crowded, Vm.isSymbol unit.1 :=
    List.forall_mem_singleton.mpr (by decide : Vm.isSymbol "Sys")
  have translated : (translation true false crowded).failure? = none := translated_usesOf indices
  have assembled : (machineCode true false crowded).failure? = none :=
    assembled_usesOf indices (by omega)
  have used : ("Sys", 240) ∈ staticUses commands := by
    rw [show staticUses commands = _ from staticUses_usesOf indices]
    exact List.mem_map.mpr ⟨240, last ▸ List.getElem_mem _, rfl⟩
  have address : staticAddress commands "Sys" 240 = stackBase := by
    have place := staticAddress_usesOf indices nodup (by omega : 240 < indices.length)
    rwa [last] at place
  let memory := Memory.zero.write 0 256
  have pointer : memory.read 0 = 256 := by rw [Memory.read_write, if_pos rfl]
  have free : memory.read stackBase = 0 := by
    rw [Memory.read_write, if_neg (by decide)]
    simp [Memory.read, Memory.zero]
  obtain ⟨linked, emitted⟩ := linked_translation names translated assembled
  refine ⟨⟨names, translated, assembled, complete_usesOf indices, apart_usesOf indices⟩, used,
    address, ⟨0, 1, 6, memory⟩, _, ?_, linked.runs_push emitted .d linked.first_push, ?_⟩
  · rw [pointer]
    rfl
  · rw [address, free, executeAll_push_d, pushed, pointer, Memory.read_write, if_neg (by decide),
      Memory.read_write, if_pos (by decide)]
    decide

end HackToolchain.Codegen
