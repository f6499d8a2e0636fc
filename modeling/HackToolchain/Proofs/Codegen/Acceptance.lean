import HackToolchain.Proofs.Assembly.Capacity
import HackToolchain.Proofs.Codegen.Uniqueness

/-! What the translator accepts, the assembler accepts: the numbers in generated code can be loaded
and its labels laid out. Only the size of a program is left to the assembler. -/
namespace HackToolchain.Codegen

open Assembly (Instruction characters executable isNumeric maxAddress)
open Vm (Located)
open Writer (Operation)

/-- What an address instruction in the code of a command can name. -/
inductive Addressed (command : Located) (code : List Instruction) : String → Prop
  | number {n : Nat} (bound : n ≤ maxAddress) : Addressed command code n.repr
  | predefined {symbol : String} (known : (Assembly.predefined.lookup symbol).isSome) :
      Addressed command code symbol
  | label {symbol : String} (defined : symbol ∈ labels code) : Addressed command code symbol
  | target {symbol : String} (jumps : target? command = some symbol) :
      Addressed command code symbol
  | static {use : String × UInt16} (uses : command.static? = some use) :
      Addressed command code (staticSymbol use)

namespace Addressed

variable {command : Located} {code : List Instruction}

theorem register {symbol : String} (member : symbol ∈ "SP" :: "R13" :: "R14" :: savedRegisters) :
    Addressed command code symbol :=
  .predefined (predefined_register member)

theorem sp : Addressed command code "SP" :=
  register (.head _)

theorem named {symbol : String} {index : UInt16} {segment : Vm.Segment}
    (bound : index.toNat < extent segment)
    (found : location command.file index.toNat segment = .named symbol)
    (statics : command.static? = if segment = .static then some (command.file, index) else none) :
    Addressed command code symbol := by
  by_cases static : segment = .static
  · subst segment
    obtain rfl := Place.named.inj found
    exact .static statics
  · exact .predefined (predefined_named bound found static)

end Addressed

theorem extent_based {file register : String} {index : Nat} {segment : Vm.Segment}
    (found : location file index segment = .based register) : extent segment = maxAddress + 1 := by
  cases segment <;> first | rfl | contradiction

theorem addresses_append (first second : List Instruction) :
    addresses (first ++ second) = addresses first ++ addresses second :=
  List.filterMap_append

theorem addressed_call {command : Located} {label : Nat} {function : String} {arguments : Nat}
    {code : List Instruction} (bound : arguments + frameSize ≤ maxAddress)
    (returns : Addressed command code (returnLabel label))
    (target : Addressed command code function) :
    ∀ symbol ∈ addresses (call label function arguments), Addressed command code symbol := by
  have shape : addresses (call label function arguments) =
      returnLabel label :: ["SP", "SP", "LCL", "SP", "SP", "ARG", "SP", "SP", "THIS", "SP", "SP",
        "THAT", "SP", "SP", "SP", (arguments + frameSize).repr, "ARG", "SP", "LCL", function] := rfl
  rw [shape]
  simp (disch := decide) [returns, target, Addressed.register, Addressed.number bound]

theorem addressed_leave {command : Located} {code : List Instruction} :
    ∀ symbol ∈ addresses leave, Addressed command code symbol := by
  have shape : addresses leave = ["LCL", "R13", "5", "R14", "SP", "ARG", "ARG", "SP", "R13", "1",
      "THAT", "R13", "2", "THIS", "R13", "3", "ARG", "R13", "4", "LCL", "R14"] := by decide
  have number (n : Nat) (bound : n ≤ maxAddress) : Addressed command code n.repr := .number bound
  have one : Addressed command code "1" := number 1 (by decide)
  have two : Addressed command code "2" := number 2 (by decide)
  have three : Addressed command code "3" := number 3 (by decide)
  have four : Addressed command code "4" := number 4 (by decide)
  have five : Addressed command code "5" := number 5 (by decide)
  rw [shape]
  simp (disch := decide) [Addressed.register, one, two, three, four, five]

/-- Code loads numbers that are addresses, and symbols of the command or of its own labels. -/
theorem CodeOf.addressed {label : Nat} {command : Located} {code : List Instruction}
    (generated : CodeOf label command.file command.scope command.instruction code) :
    ∀ symbol ∈ addresses code, Addressed command code symbol := by
  obtain ⟨file, scope, i⟩ := command
  have small {index : UInt16} {segment : Vm.Segment} {register : String}
      (bound : index.toNat < extent segment)
      (found : location file index.toNat segment = .based register) :
      index.toNat ≤ maxAddress := by
    rw [extent_based found] at bound
    exact Nat.le_of_lt_succ bound
  have based {index : Nat} {segment : Vm.Segment} {register : String} {code : List Instruction}
      (found : location file index segment = .based register) :
      Addressed ⟨file, scope, i⟩ code register :=
    .register (.tail _ (.tail _ (.tail _ (mem_savedRegisters found))))
  cases generated with
  | arithmetic op =>
    have plain {code : List Instruction} (shape : ∀ symbol ∈ addresses code, symbol = "SP") :
        ∀ symbol ∈ addresses code, Addressed ⟨file, scope, .arithmetic op⟩ code symbol :=
      fun symbol member => shape symbol member ▸ .sp
    have comparison (test : Assembly.Jump) : ∀ symbol ∈ addresses (comparison label test),
        Addressed ⟨file, scope, .arithmetic op⟩ (comparison label test) symbol := by
      have shape : addresses (comparison label test) =
        ["SP", "SP", trueLabel label, endLabel (label + 1), "SP", "SP"] := rfl
      have defined : labels (comparison label test) =
        [trueLabel label, endLabel (label + 1)] := rfl
      have passed : Addressed ⟨file, scope, .arithmetic op⟩ (comparison label test)
          (trueLabel label) := .label (defined ▸ .head _)
      have ended : Addressed ⟨file, scope, .arithmetic op⟩ (comparison label test)
          (endLabel (label + 1)) := .label (defined ▸ .tail _ (.head _))
      rw [shape]
      simp [Addressed.sp, passed, ended]
    cases op with
    | add | sub | and | or =>
      exact plain (show ∀ symbol ∈ ["SP", "SP", "SP", "SP"], symbol = "SP" by simp)
    | neg | not => exact plain (show ∀ symbol ∈ ["SP", "SP", "SP"], symbol = "SP" by simp)
    | eq | gt | lt => exact comparison _
  | @pushConstant index bound =>
    show ∀ symbol ∈ [index.toNat.repr, "SP", "SP"], Addressed _ _ symbol
    simp [Addressed.sp, Addressed.number bound]
  | @pushBased segment index register bound found =>
    show ∀ symbol ∈ [index.toNat.repr, register, "SP", "SP"], Addressed _ _ symbol
    simp [Addressed.sp, Addressed.number (small bound found), based found]
  | @pushNamed segment index symbol bound found =>
    show ∀ other ∈ [symbol, "SP", "SP"], Addressed _ _ other
    simp [Addressed.sp, Addressed.named bound found (static?_push file scope segment index)]
  | @popBased segment index register bound found =>
    show ∀ symbol ∈ [register, index.toNat.repr, "R13", "SP", "R13"], Addressed _ _ symbol
    simp (disch := decide) [Addressed.register, Addressed.number (small bound found), based found]
  | @popNamed segment index symbol bound found =>
    show ∀ other ∈ ["SP", symbol], Addressed _ _ other
    simp [Addressed.sp, Addressed.named bound found (static?_pop file scope segment index)]
  | label name => simp [addresses]
  | goto target => exact List.forall_mem_singleton.mpr (.target rfl)
  | ifGoto target =>
    show ∀ symbol ∈ ["SP", scope ++ "$" ++ target], Addressed _ _ symbol
    exact List.forall_mem_cons.mpr ⟨.sp, List.forall_mem_singleton.mpr (.target rfl)⟩
  | function name locals =>
    have pushes (count : Nat) (code : List Instruction) :
        ∀ symbol ∈ addresses (List.replicate count (push .zero)).flatten,
          Addressed ⟨file, scope, .function name locals⟩ code symbol := by
      induction count with
      | zero => simp [addresses]
      | succ count ih =>
        rw [List.replicate_succ, List.flatten_cons, addresses_append, List.forall_mem_append]
        exact ⟨show ∀ symbol ∈ ["SP", "SP"], _ by simp [Addressed.sp], ih⟩
    exact pushes locals.toNat _
  | @call function arguments bound =>
    have defined : labels (Codegen.call label function arguments.toNat) = [returnLabel label] := rfl
    exact addressed_call bound (.label (defined ▸ .head _)) (.target rfl)
  | «return» => exact addressed_leave

theorem outOfRange_repr {n : Nat} (bound : n ≤ maxAddress) : Assembly.outOfRange n.repr = false := by
  have read := Text.decimal?_repr bound
  unfold Text.decimal? at read
  split at read
  · rename_i range
    rw [Assembly.outOfRange, range.2.1, decide_eq_true range.2.2]
    simp
  · contradiction

theorem CodeOf.isNumeric_label {label : Nat} {command : Located} {code : List Instruction}
    (generated : CodeOf label command.file command.scope command.instruction code)
    (legal : LegalPlace command) {symbol : String} (member : symbol ∈ labels code) :
    isNumeric symbol = false := by
  rw [generated.labels_eq] at member
  rcases List.mem_append.mp member with chosen | numbered
  · obtain ⟨c, head, start⟩ :=
      head_of_chosen (Option.mem_toList.mp chosen) legal.scope legal.named
    simp [isNumeric, head, Vm.isDigit_of_isIdentifierStart start]
  · obtain ⟨_, _, _, numbered⟩ := numbered_of_mem numbered
    rw [isNumeric, numbered.starts]
    rfl

theorem isNumeric_target {command : Located} (legal : LegalPlace command) {symbol : String}
    (jumps : target? command = some symbol) : isNumeric symbol = false := by
  obtain ⟨file, scope, i⟩ := command
  cases i with
  | goto target | ifGoto target =>
    obtain rfl := Option.some.inj jumps
    rw [String.append_assoc]
    exact isNumeric_append legal.scope _
  | call function arguments =>
    obtain rfl := Option.some.inj jumps
    exact isNumeric_of_isSymbol legal.named
  | _ => contradiction

theorem Generates.inRange {command : Located} {code : List Instruction}
    (generates : Generates command code) (legal : LegalPlace command) :
    ∀ i ∈ code, i.outOfRange = false := by
  have symbolic {symbol : String} (symbolic : isNumeric symbol = false) :
      Assembly.outOfRange symbol = false := by
    rw [Assembly.outOfRange, symbolic]
    rfl
  obtain ⟨label, generated⟩ := generates
  intro i member
  cases i with
  | compute | label => rfl
  | address symbol =>
    have loaded : symbol ∈ addresses code := List.mem_filterMap.mpr ⟨_, member, rfl⟩
    cases generated.addressed symbol loaded with
    | number bound => exact outOfRange_repr bound
    | predefined known =>
      obtain ⟨address, found⟩ := Option.isSome_iff_exists.mp known
      exact symbolic (Assembly.isNumeric_predefined found)
    | label defined => exact symbolic (generated.isNumeric_label legal defined)
    | target jumps => exact symbolic (isNumeric_target legal jumps)
    | static uses => exact symbolic (isNumeric_static (file_of_static? uses ▸ legal.file))

theorem Consistent.unit {w : Writer} (consistent : Consistent w) {unit : String × String}
    (name : Vm.isSymbol unit.1) : Consistent (w.after (Writer.unitOperations unit)) := by
  refine (consistent.setFileName name).after ?_ name
  rw [List.forall_mem_map]
  exact fun i done => named_unitInstructions unit.2 i done

theorem Consistent.units {w : Writer} (consistent : Consistent w) {units : List (String × String)}
    (names : ∀ unit ∈ units, Vm.isSymbol unit.1) :
    Consistent (w.after (units.flatMap Writer.unitOperations)) := by
  induction units generalizing w with
  | nil => exact consistent
  | cons unit rest ih =>
    obtain ⟨first, rest⟩ := List.forall_mem_cons.mp names
    rw [List.flatMap_cons, Writer.after_append]
    exact ih (consistent.unit first) rest

theorem consistent_program (bootstrap annotate : Bool) {units : List (String × String)}
    (names : ∀ unit ∈ units, Vm.isSymbol unit.1) :
    Consistent ((Writer.new .unlimited annotate).after
      (Writer.programOperations bootstrap units)) := by
  rw [Writer.programOperations, Writer.after_append]
  apply Consistent.units _ names
  cases bootstrap with
  | false => exact consistent_new annotate
  | true =>
    have started : Operation.Named .bootstrap := trivial
    exact (consistent_new annotate).perform started (by rintro ⟨⟩)

theorem consistent_translation {bootstrap annotate : Bool} {units : List (String × String)}
    (names : ∀ unit ∈ units, Vm.isSymbol unit.1)
    (translated : (translation bootstrap annotate units).failure? = none) :
    Consistent (translation bootstrap annotate units).writer := by
  rw [(stops_translation bootstrap annotate units).finished translated]
  exact consistent_program bootstrap annotate names

/-- The instructions of a program that was translated, in order. -/
theorem code_translation {bootstrap annotate : Bool} {units : List (String × String)}
    (names : ∀ unit ∈ units, Vm.isSymbol unit.1)
    (translated : (translation bootstrap annotate units).failure? = none) :
    ∃ codes, List.Forall₂ Generates (located units) codes ∧
      (translation bootstrap annotate units).writer.sink.code =
        prologue bootstrap ++ codes.flatten := by
  obtain ⟨codes, generates, parsed⟩ := exists_codes names translated
  have consistent := consistent_translation names translated
  rw [Sink.parse_bytes consistent.whole consistent.legal] at parsed
  exact ⟨codes, generates, Except.ok.inj parsed⟩

theorem Consistent.definable {w : Writer} (consistent : Consistent w)
    (new : ∀ symbol ∈ labels w.sink.code, Assembly.predefined.lookup symbol = none) :
    Assembly.Definable w.sink.code where
  once := by
    intro before symbol after split member
    have distinct := consistent.distinct
    rw [split, labels_append, List.nodup_append'] at distinct
    exact distinct.2.2 (mem_labels.mpr member) (mem_labels.mpr (.head _))
  new symbol member := new symbol (mem_labels.mpr member)

/-- The functions that commands define. -/
def functionNames (commands : List Located) : List String :=
  commands.filterMap fun command =>
    match command.instruction with
    | .function name _ => some name
    | _ => none

/-- A label of a program holds a dollar sign or is the name of a function. -/
theorem label_cases {bootstrap : Bool} {commands : List Located} {codes : List (List Instruction)}
    (generates : List.Forall₂ Generates commands codes) {symbol : String}
    (member : symbol ∈ labels (prologue bootstrap ++ codes.flatten)) :
    '$' ∈ symbol.toList ∨ symbol ∈ functionNames commands := by
  rw [labels_append] at member
  rcases List.mem_append.mp member with start | member
  · rw [labels_prologue] at start
    split at start
    · obtain rfl := List.mem_singleton.mp start
      exact .inl (by decide)
    · contradiction
  · obtain ⟨command, there, code, ⟨label, generated⟩, member⟩ :=
      exists_generated generates (mem_labels.mp member)
    refine (generated.label_cases member).imp_right ?_
    rintro ⟨locals, function⟩
    exact List.mem_filterMap.mpr ⟨command, there, by rw [function]⟩

/-- The one thing that can be wrong with a program that was translated is its size, if none of its
functions is called like a symbol that the assembler knows. -/
theorem machineCode_failure {bootstrap annotate : Bool} {units : List (String × String)}
    (names : ∀ unit ∈ units, Vm.isSymbol unit.1)
    (translated : (translation bootstrap annotate units).failure? = none)
    (functions : ∀ name ∈ functionNames (located units),
      Assembly.predefined.lookup name = none) {e : Assembly.Error} :
    (machineCode bootstrap annotate units).failure? = some e ↔ e = .programTooLarge ∧
      Assembly.Overflows (translation bootstrap annotate units).writer.sink.code := by
  let program := (translation bootstrap annotate units).writer.sink.code
  obtain ⟨codes, generates, written⟩ := code_translation names translated
  have consistent := consistent_translation names translated
  have definable : Assembly.Definable program := by
    refine consistent.definable fun symbol member => ?_
    rw [written] at member
    rcases label_cases generates member with dollar | function
    · exact Assembly.lookup_predefined (by decide +kernel) dollar
    · exact functions symbol function
  have loadable : ∀ i ∈ program, i.outOfRange = false := by
    intro i member
    rw [show program = _ from written] at member
    rcases List.mem_append.mp member with start | member
    · have all : ∀ bootstrap, ∀ i ∈ prologue bootstrap, i.outOfRange = false := by decide
      exact all bootstrap i start
    · obtain ⟨command, there, code, generated, member⟩ := exists_generated generates member
      exact generated.inRange (legal_located names command there) i member
  rw [← Assembly.assembleInstructions_failure definable loadable,
    ← Assembly.assemble_of_parse (Sink.parse_bytes consistent.whole consistent.legal)]
  exact Iff.rfl

/-- A program that was translated assembles unless it is too large, if none of its functions is
called like a symbol that the assembler knows. -/
theorem translation_assembles {bootstrap annotate : Bool} {units : List (String × String)}
    (names : ∀ unit ∈ units, Vm.isSymbol unit.1)
    (translated : (translation bootstrap annotate units).failure? = none)
    (functions : ∀ name ∈ functionNames (located units),
      Assembly.predefined.lookup name = none) :
    let program := (translation bootstrap annotate units).writer.sink.code
    let result := (machineCode bootstrap annotate units).failure?
    (result = none ∨ result = some .programTooLarge) ∧
      (result = some .programTooLarge ↔ ∃ before i after,
        program = before ++ i :: after ∧ 32768 ≤ (executable before).length) := by
  intro program result
  have failure (e : Assembly.Error) :
      result = some e ↔ e = .programTooLarge ∧ Assembly.Overflows program :=
    machineCode_failure names translated functions
  constructor
  · cases outcome : result with
    | none => exact .inl rfl
    | some e => exact .inr (congrArg some ((failure e).mp outcome).1)
  · rw [failure, and_iff_right rfl]
    exact Iff.rfl

/-- Compares the argument with zero. -/
def isZero : List (String × String) :=
  [("Main", "function Main.isZero 0\npush argument 0\npush constant 0\neq\nreturn")]

theorem translation_assembles_isZero : (machineCode true true isZero).failure? = none := by
  have translated : (translation true true isZero).failure? = none := by decide +kernel
  obtain ⟨either, overflows⟩ :=
    translation_assembles (by decide +kernel) translated (by decide +kernel)
  apply either.resolve_right
  intro large
  obtain ⟨before, i, after, split, many⟩ := overflows.mp large
  have short : (translation true true isZero).writer.sink.code.length < 32768 := by
    decide +kernel
  have words : (executable before).length ≤ before.length := List.length_filter_le ..
  rw [split, List.length_append] at short
  omega

end HackToolchain.Codegen
