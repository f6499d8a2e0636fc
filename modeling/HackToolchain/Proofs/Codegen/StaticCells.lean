import HackToolchain.Proofs.Codegen.Namespaces

/-! Statics keep to themselves: wherever a static is used, its code addresses the same cell, which is
one of those for variables and belongs to no other static. Units can take turns in any order, and a
unit's name can come back. -/
namespace HackToolchain.Codegen

open Assembly (Instruction At Emits computation executable addressOf firstVariable maxAddress)
open Vm (Located staticUses)

/-- How many words the code of a command has before it addresses its static, and how the cell is then
copied. -/
def staticAccess? : Vm.Instruction → Option (Nat × Machine.Destination × Assembly.Operand)
  | .push .static _ => some (0, toD, .m)
  | .pop .static _ => some ((executable popD).length, toM, .d)
  | _ => none

/-- A command that uses a static addresses the static's symbol, whatever code there is around it. -/
theorem at_static {program code : List Instruction} {command : Located} {use : String × UInt16}
    {pc : Nat} (placed : At program pc code) (generates : Generates command code)
    (uses : command.static? = some use) :
    ∃ offset dest x, staticAccess? command.instruction = some (offset, dest, x) ∧
      At program (pc + offset) [.address (staticSymbol use), copy dest x] := by
  obtain ⟨label, generated⟩ := generates
  obtain ⟨file, scope, i⟩ := command
  unfold Located.static? at uses
  split at uses
  · rename_i index instruction
    obtain rfl : i = .push .static index := instruction
    obtain rfl := Option.some.inj uses
    cases generated with
    | pushBased bound found => contradiction
    | pushNamed bound found =>
      obtain rfl := Place.named.inj found
      exact ⟨0, toD, .m, rfl, placed.left⟩
  · rename_i index instruction
    obtain rfl : i = .pop .static index := instruction
    obtain rfl := Option.some.inj uses
    cases generated with
    | popBased bound found => contradiction
    | popNamed bound found =>
      obtain rfl := Place.named.inj found
      exact ⟨_, toM, .d, rfl, placed.right⟩
  · contradiction

namespace Linked

variable {bootstrap : Bool} {commands : List Located} {program : List Instruction}
  {use other : String × UInt16}

/-- The words of a use: one that loads the static's address, and one that uses the cell. -/
theorem static_words (linked : Linked bootstrap commands program) {words : List Machine.Word}
    (emitted : List.Forall₂ (Emits program) (executable program) words) {index : Nat}
    {command : Located} (found : commands[index]? = some command)
    (uses : command.static? = some use) :
    ∃ offset dest x, staticAccess? command.instruction = some (offset, dest, x) ∧
      words[position bootstrap commands index + offset]? =
        some (BitVec.ofNat 16 (addressOf program (staticSymbol use))) ∧
      words[position bootstrap commands index + offset + 1]? =
        some (computation dest (.unary none x) none).encode := by
  obtain ⟨code, generates, placed, _⟩ := linked.code found
  obtain ⟨offset, dest, x, access, addressed⟩ := at_static placed generates uses
  have both : At program (position bootstrap commands index + offset)
    ([.address (staticSymbol use)] ++ [copy dest x]) := addressed
  obtain ⟨address, first, value⟩ := exists_related_getElem? emitted (both.left.fetch rfl)
  obtain ⟨word, second, encoded⟩ := exists_related_getElem? emitted (both.right.fetch rfl)
  refine ⟨offset, dest, x, access, ?_, ?_⟩
  · rw [first, ← show address.toNat = addressOf program (staticSymbol use) from value,
      BitVec.ofNat_toNat, BitVec.setWidth_eq]
  · rw [← show word = (computation dest (.unary none x) none).encode from encoded]
    exact second

theorem address_static (linked : Linked bootstrap commands program)
    (used : use ∈ staticUses commands) : .address (staticSymbol use) ∈ program := by
  obtain ⟨command, there, uses⟩ := List.mem_filterMap.mp used
  obtain ⟨index, found⟩ := List.getElem?_of_mem there
  obtain ⟨code, generates, placed, _⟩ := linked.code found
  obtain ⟨_, _, _, _, addressed⟩ := at_static placed generates uses
  exact addressed.mem (.head _)

theorem static_used (linked : Linked bootstrap commands program) (apart : Apart commands)
    (used : use ∈ staticUses commands) :
    staticSymbol use ∈ Assembly.variableUses program := by
  rw [variableUses_eq, variablesOf, List.mem_filter]
  constructor
  · exact List.mem_filterMap.mpr ⟨_, linked.address_static used, rfl⟩
  · exact linked.isVariable_static apart used

theorem static_bounds (linked : Linked bootstrap commands program) (apart : Apart commands)
    (used : use ∈ staticUses commands) :
    firstVariable ≤ addressOf program (staticSymbol use) ∧
      addressOf program (staticSymbol use) ≤ maxAddress := by
  constructor
  · rw [(linked.static_variable apart used).2]
    exact Nat.le_add_right ..
  · exact linked.loadable _ (linked.address_static used)

theorem static_inj (linked : Linked bootstrap commands program) (apart : Apart commands)
    (used : use ∈ staticUses commands) (used' : other ∈ staticUses commands)
    (same : addressOf program (staticSymbol use) = addressOf program (staticSymbol other)) :
    use = other := by
  rw [(linked.static_variable apart used).2, (linked.static_variable apart used').2] at same
  have places := Nat.add_left_cancel same
  exact staticSymbol_injective
    (Assembly.variablesBefore_inj (linked.static_used apart used) places)

end Linked

/-- In a program that assembles each static has a cell of its own among the variables: all of its
uses load the address of that cell. Units stand in any order and may share a name, so a file can be
left and taken up again between any two commands. -/
theorem statics_isolated {bootstrap annotate : Bool} {units : List (String × String)}
    (names : ∀ unit ∈ units, Vm.isSymbol unit.1)
    (translated : (translation bootstrap annotate units).failure? = none)
    (assembled : (machineCode bootstrap annotate units).failure? = none)
    (apart : Apart (located units)) :
    let commands := located units
    let words := (machineCode bootstrap annotate units).done
    ∃ cell : String × UInt16 → Nat,
      (∀ index command use, commands[index]? = some command → command.static? = some use →
        ∃ offset dest x, staticAccess? command.instruction = some (offset, dest, x) ∧
          words[position bootstrap commands index + offset]? =
            some (BitVec.ofNat 16 (cell use)) ∧
          words[position bootstrap commands index + offset + 1]? =
            some (computation dest (.unary none x) none).encode) ∧
      (∀ use ∈ staticUses commands, firstVariable ≤ cell use ∧ cell use ≤ maxAddress) ∧
      ∀ use ∈ staticUses commands, ∀ other ∈ staticUses commands,
        cell use = cell other → use = other := by
  intro commands words
  let program := (translation bootstrap annotate units).writer.sink.code
  obtain ⟨linked, emitted⟩ := linked_translation names translated assembled
  refine ⟨fun use => addressOf program (staticSymbol use), ?_, ?_, ?_⟩
  · intro index command use found uses
    exact linked.static_words emitted found uses
  · intro use used
    exact linked.static_bounds apart used
  · intro use used other used' same
    exact linked.static_inj apart used used' same

/-- Two units that take turns, with statics whose symbols start alike. -/
def turns : List (String × String) :=
  [("A.1", "push static 2"), ("A", "pop static 1"), ("A.1", "push constant 3\npop static 2")]

theorem statics_isolated_turns :
    let words := (machineCode false false turns).done
    ∃ cell : String × UInt16 → Nat,
      words[0]? = some (BitVec.ofNat 16 (cell ("A.1", 2))) ∧
      words[24]? = some (BitVec.ofNat 16 (cell ("A.1", 2))) ∧
      cell ("A.1", 2) ≠ cell ("A", 1) := by
  intro words
  have translated : (translation false false turns).failure? = none := by decide +kernel
  have assembled : (machineCode false false turns).failure? = none := by decide +kernel
  obtain ⟨cell, uses, _, distinct⟩ :=
    statics_isolated (by decide +kernel) translated assembled (by decide +kernel)
  refine ⟨cell, ?_, ?_, ?_⟩
  · obtain ⟨_, _, _, access, loads, _⟩ :=
      uses 0 ⟨"A.1", "A.1", .push .static 2⟩ ("A.1", 2) (by decide +kernel) rfl
    cases access
    exact loads
  · obtain ⟨_, _, _, access, loads, _⟩ :=
      uses 3 ⟨"A.1", "A.1", .pop .static 2⟩ ("A.1", 2) (by decide +kernel) rfl
    cases access
    have place : position false (located turns) 3 = 20 := by decide +kernel
    rw [place] at loads
    exact loads
  · intro same
    have one := distinct ("A.1", 2) (by decide +kernel) ("A", 1) (by decide +kernel) same
    contradiction

end HackToolchain.Codegen
