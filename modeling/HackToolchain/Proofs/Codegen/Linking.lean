import HackToolchain.Proofs.Codegen.Execution
import HackToolchain.Proofs.Codegen.Translation

/-! Where the code of each command stands in an assembled program, and what the labels that commands
name stand for. -/
namespace HackToolchain.Codegen

open Assembly (Instruction characters executable addressOf At maxAddress)
open Machine (Word Cpu)
open Vm (Located)

/-- The words of a translation. -/
def machineCode (bootstrap annotate : Bool) (units : List (String × String)) :
    Progress Assembly.Error Word :=
  Assembly.assemble (characters (translation bootstrap annotate units).writer.sink.bytes)

/-- How many words come before the code of command number `index`. -/
def position (bootstrap : Bool) (commands : List Located) (index : Nat) : Nat :=
  (executable (prologue bootstrap)).length +
    ((commands.take index).map fun command => size command.instruction).sum

/-- An assembled program: the code of its commands, with addresses that can be loaded. -/
structure Linked (bootstrap : Bool) (commands : List Located) (program : List Instruction) :
    Prop where
  generated : ∃ codes, List.Forall₂ Generates commands codes ∧
    program = prologue bootstrap ++ codes.flatten
  legal : ∀ command ∈ commands, LegalPlace command
  laid : ∃ layout, Assembly.Layout.ofInstructions program = .ok layout
  loadable : Assembly.Loadable program

/-- The command that an instruction of generated code belongs to. -/
theorem exists_generated {commands : List Located} {codes : List (List Instruction)}
    (generates : List.Forall₂ Generates commands codes) {i : Instruction}
    (member : i ∈ codes.flatten) :
    ∃ command ∈ commands, ∃ code, Generates command code ∧ i ∈ code := by
  obtain ⟨code, here, member⟩ := List.mem_flatten.mp member
  obtain ⟨command, there, generates⟩ := exists_of_mem_right generates here
  exact ⟨command, there, code, generates, member⟩

theorem wellFormed_program {bootstrap : Bool} {commands : List Located}
    {codes : List (List Instruction)} (generates : List.Forall₂ Generates commands codes)
    (legal : ∀ command ∈ commands, LegalPlace command) :
    WellFormed (prologue bootstrap ++ codes.flatten) := by
  apply (WellFormed.prologue bootstrap).append
  apply WellFormed.flatten
  intro code member
  have both := (List.forall₂_and_left _ _).mpr ⟨legal, generates⟩
  obtain ⟨command, _, legal, generates⟩ := exists_of_mem_right both member
  exact generates.wellFormed legal

/-- A translation that succeeds and assembles is linked, and its words do what its assembly says. -/
theorem exists_linked {bootstrap annotate : Bool} {units : List (String × String)}
    (names : ∀ unit ∈ units, Vm.isSymbol unit.1)
    (translated : (translation bootstrap annotate units).failure? = none)
    (assembled : (machineCode bootstrap annotate units).failure? = none) :
    ∃ program, Linked bootstrap (located units) program ∧ ∀ limit cpu,
      Cpu.run (machineCode bootstrap annotate units).done.toArray limit cpu =
        Assembly.interpret program limit cpu := by
  obtain ⟨codes, generates, parsed⟩ := exists_codes names translated
  obtain ⟨layout, laid, numbers, emitted⟩ := Assembly.exists_layout parsed assembled
  have legal := legal_located names
  have wellFormed : WellFormed (prologue bootstrap ++ codes.flatten) :=
    wellFormed_program generates legal
  have loadable := Assembly.loadable_of_sparse laid numbers wellFormed.sparse
  refine ⟨_, ⟨⟨codes, generates, rfl⟩, legal, ⟨layout, laid⟩, loadable⟩, ?_⟩
  intro limit cpu
  rw [Cpu.run, machineCode, Assembly.runFrom_eq_interpret loadable wellFormed.documented emitted,
    Nat.zero_add]

theorem isNumeric_append {name : String} (symbol : Vm.isSymbol name) (rest : String) :
    Assembly.isNumeric (name ++ rest) = false := by
  unfold Vm.isSymbol at symbol
  split at symbol
  · contradiction
  · rename_i c tail text
    have start := (Bool.and_eq_true_iff.mp symbol).1
    simp [Assembly.isNumeric, text, Vm.isDigit_of_isIdentifierStart start]

theorem isNumeric_of_isSymbol {name : String} (symbol : Vm.isSymbol name) :
    Assembly.isNumeric name = false :=
  String.append_empty (s := name) ▸ isNumeric_append symbol ""

theorem length_codes {commands : List Located} {codes : List (List Instruction)}
    (generates : List.Forall₂ Generates commands codes) :
    (executable codes.flatten).length =
      (commands.map fun command => size command.instruction).sum := by
  induction generates with
  | nil => rfl
  | cons first _ ih =>
    obtain ⟨label, first⟩ := first
    rw [List.flatten_cons, Assembly.executable_append, List.length_append, ih,
      first.length_executable, List.map_cons, List.sum_cons]

theorem position_succ {bootstrap : Bool} {commands : List Located} {index : Nat}
    {command : Located} (found : commands[index]? = some command) :
    position bootstrap commands (index + 1) =
      position bootstrap commands index + size command.instruction := by
  obtain ⟨bound, rfl⟩ := List.getElem?_eq_some_iff.mp found
  rw [position, position, List.take_succ_eq_append_getElem bound, List.map_append,
    List.sum_append, Nat.add_assoc, List.map_singleton, List.sum_singleton]

namespace Linked

variable {bootstrap : Bool} {commands : List Located} {program : List Instruction} {index : Nat}
  {command : Located}

theorem start (linked : Linked bootstrap commands program) :
    At program 0 (prologue bootstrap) := by
  obtain ⟨codes, _, rfl⟩ := linked.generated
  exact ⟨[], codes.flatten, rfl, rfl⟩

/-- The code of a command stands at its position and reaches to the next one. -/
theorem code (linked : Linked bootstrap commands program)
    (found : commands[index]? = some command) :
    ∃ code, Generates command code ∧ At program (position bootstrap commands index) code ∧
      position bootstrap commands (index + 1) =
        position bootstrap commands index + (executable code).length := by
  obtain ⟨codes, generates, rfl⟩ := linked.generated
  obtain ⟨bound, rfl⟩ := List.getElem?_eq_some_iff.mp found
  have within : index < codes.length := generates.length_eq ▸ bound
  have generated := (List.forall₂_iff_get.mp generates).2 index bound within
  obtain ⟨label, codeOf⟩ := generated
  have split : codes.flatten =
      (codes.take index).flatten ++ (codes[index] ++ (codes.drop (index + 1)).flatten) := by
    rw [← List.flatten_cons, List.getElem_cons_drop within, ← List.flatten_append,
      List.take_append_drop]
  refine ⟨codes[index], ⟨label, codeOf⟩, ?_, ?_⟩
  · refine ⟨prologue bootstrap ++ (codes.take index).flatten, (codes.drop (index + 1)).flatten,
      ?_, ?_⟩
    · rw [split, List.append_assoc, List.append_assoc]
    · rw [Assembly.executable_append, List.length_append, position,
        length_codes (List.forall₂_take index generates)]
  · exact codeOf.length_executable ▸ position_succ found

/-- What a label at a position stands for. -/
theorem label (linked : Linked bootstrap commands program) {symbol : String} {pc : Nat}
    (symbolic : Assembly.isNumeric symbol = false) (placed : At program pc [.label symbol]) :
    addressOf program symbol = pc ∧ pc ≤ maxAddress := by
  obtain ⟨layout, laid⟩ := linked.laid
  exact ⟨placed.addressOf_label laid symbolic, (placed.label laid).2.2⟩

theorem labelAt (linked : Linked bootstrap commands program) {scope name : String}
    (found : Vm.labelIndex? commands scope name = some index) :
    At program (position bootstrap commands index) [.label (scope ++ "$" ++ name)] ∧
      Vm.isSymbol scope := by
  obtain ⟨bound, holds, _⟩ := List.findIdx?_eq_some_iff_getElem.mp found
  rw [Bool.and_eq_true, decide_eq_true_eq, decide_eq_true_eq] at holds
  obtain ⟨rfl, named⟩ := holds
  obtain ⟨code, ⟨label, generated⟩, placed, _⟩ := linked.code (List.getElem?_eq_getElem bound)
  rw [named] at generated
  cases generated
  exact ⟨placed, (linked.legal _ (List.getElem_mem bound)).scope⟩

theorem functionAt (linked : Linked bootstrap commands program) {name : String}
    (found : Vm.functionIndex? commands name = some index) :
    At program (position bootstrap commands index) [.label name] ∧ Vm.isSymbol name := by
  obtain ⟨bound, holds, _⟩ := List.findIdx?_eq_some_iff_getElem.mp found
  obtain ⟨code, ⟨label, generated⟩, placed, _⟩ := linked.code (List.getElem?_eq_getElem bound)
  have named := (linked.legal _ (List.getElem_mem bound)).named
  cases instruction : commands[index].instruction with
  | function other locals =>
    rw [instruction] at generated holds named
    obtain rfl : other = name := of_decide_eq_true holds
    cases generated
    exact ⟨At.left placed, named⟩
  | _ =>
    rw [instruction] at holds
    contradiction

theorem labelIndex (linked : Linked bootstrap commands program) {scope name : String}
    (found : Vm.labelIndex? commands scope name = some index) :
    addressOf program (scope ++ "$" ++ name) = position bootstrap commands index ∧
      position bootstrap commands index ≤ maxAddress := by
  obtain ⟨placed, symbol⟩ := linked.labelAt found
  refine linked.label ?_ placed
  rw [String.append_assoc]
  exact isNumeric_append symbol _

theorem functionIndex (linked : Linked bootstrap commands program) {name : String}
    (found : Vm.functionIndex? commands name = some index) :
    addressOf program name = position bootstrap commands index ∧
      position bootstrap commands index ≤ maxAddress := by
  obtain ⟨placed, symbol⟩ := linked.functionAt found
  exact linked.label (isNumeric_of_isSymbol symbol) placed

end Linked

end HackToolchain.Codegen
