import HackToolchain.Proofs.Codegen.Frames
import HackToolchain.Proofs.Codegen.Linking

/-! Statics are the only variables of a program whose jumps have somewhere to go, so the assembler
gives them cells in the order of their first uses. -/
namespace HackToolchain.Codegen

open Assembly (Instruction Jump isNumeric fixedAddress? addressOf executable maxAddress)
open Vm (Located staticUses)

/-- What a static is called in assembly. -/
def staticSymbol (use : String × UInt16) : String :=
  use.1 ++ "." ++ use.2.toNat.repr

theorem split_last {before after before' after' : List Char} {c : Char}
    (absent : c ∉ after) (absent' : c ∉ after')
    (same : before ++ c :: after = before' ++ c :: after') : before = before' ∧ after = after' := by
  have back := congrArg List.reverse same
  simp only [List.reverse_append, List.reverse_cons, List.append_assoc, List.singleton_append]
    at back
  have kept {text : List Char} (absent : c ∉ text) :
      ∀ d ∈ text.reverse, decide (d ≠ c) = true := by
    intro d member
    rw [decide_eq_true_eq]
    rintro rfl
    exact absent (List.mem_reverse.mp member)
  have stop (text : List Char) : ∀ d ∈ (c :: text).head?, decide (d ≠ c) = false := by simp
  have last := congrArg (List.takeWhile fun d => decide (d ≠ c)) back
  have first := congrArg (List.dropWhile fun d => decide (d ≠ c)) back
  rw [Assembly.takeWhile_all (kept absent) (stop _),
    Assembly.takeWhile_all (kept absent') (stop _)] at last
  rw [Assembly.dropWhile_all (kept absent) (stop _),
    Assembly.dropWhile_all (kept absent') (stop _)] at first
  exact ⟨List.reverse_inj.mp (List.cons.inj first).2, List.reverse_inj.mp last⟩

theorem staticSymbol_injective : Function.Injective staticSymbol := by
  rintro ⟨file, index⟩ ⟨file', index'⟩ same
  have digits (n : Nat) : '.' ∉ n.repr.toList := Text.not_mem_repr (by decide) n
  have text := congrArg String.toList same
  simp only [staticSymbol, String.toList_append, List.append_assoc] at text
  obtain ⟨files, numbers⟩ := split_last (digits index.toNat) (digits index'.toNat) text
  rw [String.toList_inj.mp files,
    UInt16.toNat_inj.mp (Nat.repr_injective (String.toList_inj.mp numbers))]

theorem eraseDups_map [BEq α] [LawfulBEq α] [BEq β] [LawfulBEq β] {f : α → β}
    (injective : Function.Injective f) (items : List α) :
    (items.map f).eraseDups = items.eraseDups.map f := by
  induction size : items.length using Nat.strongRecOn generalizing items with
  | ind n ih =>
    cases items with
    | nil => simp
    | cons item rest =>
      have shorter := List.length_filter_le (fun other => !other == item) rest
      simp only [List.length_cons] at size
      have same : (fun other => !f other == f item) = fun other => !other == item := by
        funext other
        rw [Bool.eq_iff_iff]
        simp [injective.eq_iff]
      rw [List.map_cons, List.eraseDups_cons, List.eraseDups_cons, List.map_cons, List.filter_map,
        Function.comp_def, same, ih _ (by omega) _ rfl]

/-- Every symbol that an address instruction has, in order. -/
def addresses (code : List Instruction) : List String :=
  code.filterMap fun
    | .address symbol => some symbol
    | _ => none

def isVariable (program : List Instruction) (symbol : String) : Bool :=
  !isNumeric symbol && (fixedAddress? program symbol).isNone

/-- The variables that code uses, in order. -/
def variablesOf (program code : List Instruction) : List String :=
  (addresses code).filter (isVariable program)

theorem variablesOf_append (program first second : List Instruction) :
    variablesOf program (first ++ second) =
      variablesOf program first ++ variablesOf program second := by
  simp [variablesOf, addresses]

theorem variableUses_eq (program : List Instruction) :
    Assembly.variableUses program = variablesOf program program := by
  have symbols (code : List Instruction) : code.filterMap Instruction.symbolic? =
      (addresses code).filter (!isNumeric ·) := by
    induction code with
    | nil => rfl
    | cons i rest ih =>
      cases i with
      | address symbol =>
        cases numeric : isNumeric symbol <;>
          simpa [addresses, Instruction.symbolic?, numeric] using ih
      | compute dest comp jump | label symbol => exact ih
  rw [Assembly.variableUses, symbols, variablesOf, List.filter_filter]
  congr 1
  funext symbol
  exact Bool.and_comm ..

theorem predefined_register {symbol : String}
    (member : symbol ∈ "SP" :: "R13" :: "R14" :: savedRegisters) :
    (Assembly.predefined.lookup symbol).isSome := by
  have all : ∀ symbol ∈ "SP" :: "R13" :: "R14" :: savedRegisters,
      (Assembly.predefined.lookup symbol).isSome := by decide +kernel
  exact all symbol member

/-- Of the cells with a name of their own, only statics have names that are not predefined. -/
theorem predefined_named {file symbol : String} {index : Nat} {segment : Vm.Segment}
    (bound : index < extent segment) (found : location file index segment = .named symbol)
    (other : segment ≠ .static) : (Assembly.predefined.lookup symbol).isSome := by
  cases segment with
  | «local» | argument | this | that | constant => contradiction
  | static => exact absurd rfl other
  | temp =>
    obtain rfl := Place.named.inj found
    have all : ∀ n < 16, (Assembly.predefined.lookup ("R" ++ n.repr)).isSome := by decide +kernel
    simp only [extent] at bound
    exact all (5 + index) (by omega)
  | pointer =>
    obtain rfl := Place.named.inj found
    split <;> exact predefined_register (by decide)

section Known

variable {program : List Instruction}

theorem isVariable_numeric {symbol : String} (numeric : isNumeric symbol) :
    isVariable program symbol = false := by
  simp [isVariable, numeric]

theorem isVariable_predefined {symbol : String}
    (predefined : (Assembly.predefined.lookup symbol).isSome) :
    isVariable program symbol = false := by
  obtain ⟨address, found⟩ := Option.isSome_iff_exists.mp predefined
  simp [isVariable, fixedAddress?, found]

theorem isVariable_label {symbol : String} (defined : .label symbol ∈ program) :
    isVariable program symbol = false := by
  cases found : Assembly.predefined.lookup symbol <;>
    simp [isVariable, fixedAddress?, found, defined]

theorem isVariable_register {symbol : String}
    (member : symbol ∈ "SP" :: "R13" :: "R14" :: savedRegisters) :
    isVariable program symbol = false :=
  isVariable_predefined (predefined_register member)

end Known

theorem variablesOf_eq_nil {program code : List Instruction} {symbols : List String}
    (shape : addresses code = symbols)
    (settled : ∀ symbol ∈ symbols, isVariable program symbol = false) :
    variablesOf program code = [] := by
  rw [variablesOf, shape, List.filter_eq_nil_iff]
  exact fun symbol member => by simp [settled symbol member]

theorem variablesOf_arithmetic {program : List Instruction} {label : Nat} {op : Vm.ArithmeticOp}
    (labels : ∀ symbol, .label symbol ∈ arithmetic label op → .label symbol ∈ program) :
    variablesOf program (arithmetic label op) = [] := by
  have sp : isVariable program "SP" = false := isVariable_register (by decide)
  have comparison {test : Jump}
      (labels : ∀ symbol, .label symbol ∈ comparison label test → .label symbol ∈ program) :
      variablesOf program (comparison label test) = [] := by
    have passed := isVariable_label (labels (trueLabel label) (by simp [comparison, truth]))
    have ended := isVariable_label (labels (endLabel (label + 1)) (by simp [comparison, truth]))
    have shape : addresses (comparison label test) =
      ["SP", "SP", trueLabel label, endLabel (label + 1), "SP", "SP"] := rfl
    exact variablesOf_eq_nil shape (by simp [sp, passed, ended])
  have plain {code : List Instruction} (shape : ∀ symbol ∈ addresses code, symbol = "SP") :
      variablesOf program code = [] :=
    variablesOf_eq_nil rfl fun symbol member => shape symbol member ▸ sp
  cases op with
  | add | sub | and | or =>
    exact plain (show ∀ symbol ∈ ["SP", "SP", "SP", "SP"], symbol = "SP" by simp)
  | neg | not => exact plain (show ∀ symbol ∈ ["SP", "SP", "SP"], symbol = "SP" by simp)
  | eq | gt | lt => exact comparison labels

theorem variablesOf_call {program : List Instruction} {label : Nat} {function : String}
    {arguments : Nat} (returns : .label (returnLabel label) ∈ program)
    (defined : .label function ∈ program) :
    variablesOf program (call label function arguments) = [] := by
  have shape : addresses (call label function arguments) =
      returnLabel label :: ["SP", "SP", "LCL", "SP", "SP", "ARG", "SP", "SP", "THIS", "SP", "SP",
        "THAT", "SP", "SP", "SP", (arguments + frameSize).repr, "ARG", "SP", "LCL", function] := rfl
  refine variablesOf_eq_nil shape ?_
  simp (disch := decide) [isVariable_label returns, isVariable_label defined, isVariable_register,
    isVariable_numeric (Assembly.isNumeric_repr _)]

theorem variablesOf_leave (program : List Instruction) : variablesOf program leave = [] := by
  have shape : addresses leave = ["LCL", "R13", "5", "R14", "SP", "ARG", "ARG", "SP", "R13", "1",
      "THAT", "R13", "2", "THIS", "R13", "3", "ARG", "R13", "4", "LCL", "R14"] := by decide
  refine variablesOf_eq_nil shape ?_
  simp (disch := decide) [isVariable_register, isVariable_numeric]

theorem isVariable_based {program : List Instruction} {file register : String} {index : Nat}
    {segment : Vm.Segment} (found : location file index segment = .based register) :
    isVariable program register = false :=
  isVariable_register (.tail _ (.tail _ (.tail _ (mem_savedRegisters found))))

theorem static?_push (file scope : String) (segment : Vm.Segment) (index : UInt16) :
    Located.static? ⟨file, scope, .push segment index⟩ =
      if segment = .static then some (file, index) else none := by
  cases segment <;> rfl

theorem static?_pop (file scope : String) (segment : Vm.Segment) (index : UInt16) :
    Located.static? ⟨file, scope, .pop segment index⟩ =
      if segment = .static then some (file, index) else none := by
  cases segment <;> rfl

theorem not_static_of_based {file register : String} {index : Nat} {segment : Vm.Segment}
    (found : location file index segment = .based register) : segment ≠ .static := by
  rintro rfl
  contradiction

/-- Of the cells with a name of their own, those of statics are variables and no others. -/
theorem filter_named {program : List Instruction} {file symbol : String} {index : UInt16}
    {segment : Vm.Segment} (bound : index.toNat < extent segment)
    (found : location file index.toNat segment = .named symbol)
    (statics : segment = .static → isVariable program (staticSymbol (file, index))) :
    [symbol].filter (isVariable program) =
      ((if segment = .static then some (file, index) else none).map staticSymbol).toList := by
  by_cases static : segment = .static
  · subst segment
    obtain rfl := Place.named.inj found
    exact List.filter_cons_of_pos (statics rfl)
  · simp [static, isVariable_predefined (predefined_named bound found static)]

/-- The label that a command jumps to. -/
def target? (command : Located) : Option String :=
  match command.instruction with
  | .goto target | .ifGoto target => some (command.scope ++ "$" ++ target)
  | .call function _ => some function
  | _ => none

/-- The only variable that the code of a command uses is its static. -/
theorem variablesOf_code {program : List Instruction} {label : Nat} {command : Located}
    {code : List Instruction}
    (generated : CodeOf label command.file command.scope command.instruction code)
    (labels : ∀ symbol, .label symbol ∈ code → .label symbol ∈ program)
    (targets : ∀ symbol, target? command = some symbol → .label symbol ∈ program)
    (statics : ∀ use, command.static? = some use → isVariable program (staticSymbol use)) :
    variablesOf program code = (command.static?.map staticSymbol).toList := by
  obtain ⟨file, scope, i⟩ := command
  have sp : isVariable program "SP" = false := isVariable_register (by decide)
  have r13 : isVariable program "R13" = false := isVariable_register (by decide)
  have number (n : Nat) : isVariable program n.repr = false :=
    isVariable_numeric (Assembly.isNumeric_repr n)
  have jump {symbol : String} (target : target? ⟨file, scope, i⟩ = some symbol) :=
    isVariable_label (targets symbol target)
  cases generated with
  | arithmetic op => exact variablesOf_arithmetic labels
  | @pushConstant index bound =>
    exact variablesOf_eq_nil (show addresses _ = [index.toNat.repr, "SP", "SP"] from rfl)
      (by simp [sp, number])
  | @pushBased segment index register bound found =>
    rw [static?_push, if_neg (not_static_of_based found)]
    exact variablesOf_eq_nil (show addresses _ = [index.toNat.repr, register, "SP", "SP"] from rfl)
      (by simp [sp, number, isVariable_based found])
  | @pushNamed segment index symbol bound found =>
    rw [static?_push] at statics ⊢
    rw [← filter_named bound found fun static => statics (file, index) (if_pos static)]
    show [symbol, "SP", "SP"].filter (isVariable program) = _
    simp [List.filter_cons, sp]
  | @popBased segment index register bound found =>
    rw [static?_pop, if_neg (not_static_of_based found)]
    exact variablesOf_eq_nil
      (show addresses _ = [register, index.toNat.repr, "R13", "SP", "R13"] from rfl)
      (by simp [sp, r13, number, isVariable_based found])
  | @popNamed segment index symbol bound found =>
    rw [static?_pop] at statics ⊢
    rw [← filter_named bound found fun static => statics (file, index) (if_pos static)]
    show ["SP", symbol].filter (isVariable program) = _
    simp [List.filter_cons, sp]
  | label name => rfl
  | goto target =>
    exact variablesOf_eq_nil (show addresses _ = [scope ++ "$" ++ target] from rfl)
      (by simp [jump rfl])
  | ifGoto target =>
    exact variablesOf_eq_nil (show addresses _ = ["SP", scope ++ "$" ++ target] from rfl)
      (by simp [sp, jump rfl])
  | function name locals =>
    have pushes (count : Nat) :
        variablesOf program (List.replicate count (push .zero)).flatten = [] := by
      induction count with
      | zero => rfl
      | succ count ih =>
        rw [List.replicate_succ, List.flatten_cons, variablesOf_append, ih, List.append_nil]
        exact variablesOf_eq_nil (show addresses (push .zero) = ["SP", "SP"] from rfl)
          (by simp [sp])
    exact pushes locals.toNat
  | call bound => exact variablesOf_call (labels _ (by simp [call])) (targets _ rfl)
  | «return» => exact variablesOf_leave program

/-- No function is called like a static that is used. -/
def Apart (commands : List Located) : Prop :=
  ∀ command ∈ commands, ∀ use ∈ staticUses commands,
    ¬command.instruction.isFunction (staticSymbol use)

instance (commands : List Located) : Decidable (Apart commands) :=
  inferInstanceAs (Decidable (∀ command ∈ commands, ∀ use ∈ staticUses commands,
    ¬command.instruction.isFunction (staticSymbol use)))

/-- The labels that code defines, in order. -/
def labels (code : List Instruction) : List String :=
  code.filterMap fun
    | .label symbol => some symbol
    | _ => none

theorem mem_labels {symbol : String} {code : List Instruction} :
    symbol ∈ labels code ↔ .label symbol ∈ code := by
  induction code with
  | nil => simp [labels]
  | cons i rest ih =>
    rw [labels] at ih
    cases i <;> simp only [labels, List.filterMap_cons, List.mem_cons, ih] <;> simp

theorem labels_enter (function : String) (locals : Nat) :
    labels (enter function locals) = [function] := by
  have pushes (count : Nat) : labels (List.replicate count (push .zero)).flatten = [] := by
    induction count with
    | zero => rfl
    | succ count ih =>
      rw [List.replicate_succ, List.flatten_cons]
      exact ih
  exact congrArg (function :: ·) (pushes locals)

/-- A label holds a dollar sign or is the name of a function. -/
theorem CodeOf.label_cases {label : Nat} {file scope symbol : String} {i : Vm.Instruction}
    {code : List Instruction} (generated : CodeOf label file scope i code)
    (member : .label symbol ∈ code) :
    '$' ∈ symbol.toList ∨ ∃ locals, i = .function symbol locals := by
  rw [← mem_labels] at member
  cases generated with
  | arithmetic op =>
    have dollar : ∀ symbol ∈ [trueLabel label, endLabel (label + 1)], '$' ∈ symbol.toList := by
      simp [trueLabel, endLabel]
    cases op with
    | add | sub | and | or | neg | not => contradiction
    | eq | gt | lt => exact .inl (dollar symbol member)
  | pushConstant | pushBased | pushNamed | popBased | popNamed => contradiction
  | goto | ifGoto | «return» => contradiction
  | label name =>
    obtain rfl := List.mem_singleton.mp member
    exact .inl (by simp)
  | function name locals =>
    rw [labels_enter, List.mem_singleton] at member
    exact .inr ⟨locals, member ▸ rfl⟩
  | call bound =>
    obtain rfl := List.mem_singleton.mp (show symbol ∈ [returnLabel label] from member)
    exact .inl (by simp [returnLabel])

/-- Every jump, that of the code which starts the program included, has somewhere to go. -/
structure Complete (bootstrap : Bool) (commands : List Located) : Prop where
  entry : bootstrap → (Vm.functionIndex? commands entryFunction).isSome
  resolved : ∀ command ∈ commands, command.Resolved commands

theorem dollar_not_mem {name : String} (symbol : Vm.isSymbol name) : '$' ∉ name.toList := by
  unfold Vm.isSymbol at symbol
  split at symbol
  · contradiction
  · rename_i c rest text
    simp only [Bool.and_eq_true, List.all_eq_true] at symbol
    rw [text, List.mem_cons]
    rintro (rfl | member)
    · exact absurd symbol.1 (by decide)
    · exact absurd (symbol.2 '$' member).1 (by decide)

theorem dollar_not_mem_staticSymbol {use : String × UInt16} (symbol : Vm.isSymbol use.1) :
    '$' ∉ (staticSymbol use).toList := by
  have digits (n : Nat) : '$' ∉ n.repr.toList := Text.not_mem_repr (by decide) n
  simp only [staticSymbol, String.toList_append, List.mem_append, not_or]
  exact ⟨⟨dollar_not_mem symbol, by decide⟩, digits _⟩

theorem file_of_static? {command : Located} {use : String × UInt16}
    (uses : command.static? = some use) : use.1 = command.file := by
  unfold Located.static? at uses
  split at uses
  · exact Option.some.inj uses ▸ rfl
  · exact Option.some.inj uses ▸ rfl
  · contradiction

theorem labels_prologue (bootstrap : Bool) :
    labels (prologue bootstrap) = if bootstrap then ["$RET.0"] else [] := by
  cases bootstrap <;> decide

theorem isNumeric_static {use : String × UInt16} (file : Vm.isSymbol use.1) :
    isNumeric (staticSymbol use) = false := by
  rw [staticSymbol, String.append_assoc]
  exact isNumeric_append file _

theorem predefined_static (use : String × UInt16) :
    Assembly.predefined.lookup (staticSymbol use) = none := by
  have dots : ∀ entry ∈ Assembly.predefined, '.' ∉ entry.1.toList := by decide +kernel
  exact Assembly.lookup_predefined dots (by simp [staticSymbol])

namespace Linked

variable {bootstrap : Bool} {commands : List Located} {program : List Instruction}

theorem mem_program (linked : Linked bootstrap commands program) {i : Instruction}
    (member : i ∈ program) :
    i ∈ prologue bootstrap ∨ ∃ command ∈ commands, ∃ code, Generates command code ∧ i ∈ code := by
  obtain ⟨codes, generates, rfl⟩ := linked.generated
  exact (List.mem_append.mp member).imp_right (exists_generated generates)

theorem isVariable_static (linked : Linked bootstrap commands program) (apart : Apart commands)
    {use : String × UInt16} (used : use ∈ staticUses commands) :
    isVariable program (staticSymbol use) := by
  obtain ⟨user, there, uses⟩ := List.mem_filterMap.mp used
  have file : Vm.isSymbol use.1 := file_of_static? uses ▸ (linked.legal user there).file
  have numeric := isNumeric_static file
  have undefined : .label (staticSymbol use) ∉ program := by
    intro member
    have plain := dollar_not_mem_staticSymbol file
    rcases linked.mem_program member with start | ⟨command, there, code, ⟨label, generated⟩, here⟩
    · rw [← mem_labels, labels_prologue] at start
      split at start
      · exact plain (List.mem_singleton.mp start ▸ by decide)
      · contradiction
    · rcases generated.label_cases here with dollar | ⟨locals, function⟩
      · exact plain dollar
      · exact apart command there use used (function ▸ decide_eq_true rfl)
  simp [isVariable, numeric, fixedAddress?, predefined_static use, undefined]

theorem target_mem (linked : Linked bootstrap commands program)
    (complete : Complete bootstrap commands) {command : Located} (member : command ∈ commands)
    {symbol : String} (target : target? command = some symbol) : .label symbol ∈ program := by
  have resolved := complete.resolved command member
  unfold target? at target
  unfold Located.Resolved at resolved
  cases instruction : command.instruction with
  | goto name | ifGoto name =>
    simp only [instruction] at target resolved
    obtain ⟨index, found⟩ := Option.isSome_iff_exists.mp resolved
    exact Option.some.inj target ▸ (linked.labelAt found).1.member
  | call function arguments =>
    simp only [instruction] at target resolved
    obtain ⟨index, found⟩ := Option.isSome_iff_exists.mp resolved
    exact Option.some.inj target ▸ (linked.functionAt found).1.member
  | _ => simp [instruction] at target

theorem variablesOf_prologue (linked : Linked bootstrap commands program)
    (complete : Complete bootstrap commands) : variablesOf program (prologue bootstrap) = [] := by
  cases bootstrap with
  | false => rfl
  | true =>
    obtain ⟨index, found⟩ := Option.isSome_iff_exists.mp (complete.entry rfl)
    have before : variablesOf program setStack = [] :=
      variablesOf_eq_nil (show addresses _ = [stackBase.repr, "SP"] from rfl)
        (by simp (disch := decide) [isVariable_register, isVariable_numeric])
    have returns : .label (returnLabel 0) ∈ prologue true :=
      mem_labels.mp (by rw [labels_prologue]; decide)
    have called : variablesOf program (call 0 entryFunction 0) = [] :=
      variablesOf_call (linked.start.mem returns) (linked.functionAt found).1.member
    rw [prologue, if_pos rfl, Codegen.start, variablesOf_append, before, called, List.append_nil]

/-- The variables of a program are its statics, use by use. -/
theorem variableUses (linked : Linked bootstrap commands program)
    (complete : Complete bootstrap commands) (apart : Apart commands) :
    Assembly.variableUses program = (staticUses commands).map staticSymbol := by
  have parts {some : List Located} {codes : List (List Instruction)}
      (generates : List.Forall₂ Generates some codes) (within : ∀ c ∈ some, c ∈ commands)
      (labels : ∀ symbol, .label symbol ∈ codes.flatten → .label symbol ∈ program) :
      variablesOf program codes.flatten = (some.filterMap Located.static?).map staticSymbol := by
    induction generates with
    | nil => rfl
    | @cons command code some codes first _ ih =>
      obtain ⟨label, first⟩ := first
      obtain ⟨here, within⟩ := List.forall_mem_cons.mp within
      rw [List.flatten_cons, variablesOf_append,
        ih within fun symbol member => labels symbol (List.mem_append_right code member),
        variablesOf_code first (fun symbol member => labels symbol (List.mem_append_left _ member))
          (fun symbol => linked.target_mem complete here)
          (fun use uses => linked.isVariable_static apart
            (List.mem_filterMap.mpr ⟨command, here, uses⟩)), List.filterMap_cons]
      cases command.static? <;> rfl
  obtain ⟨codes, generates, split⟩ := linked.generated
  have commanded := parts generates (fun _ => id) fun symbol member =>
    split ▸ List.mem_append_right _ member
  have whole : variablesOf program program =
      variablesOf program (prologue bootstrap ++ codes.flatten) := by rw [← split]
  rw [variableUses_eq, whole, variablesOf_append, linked.variablesOf_prologue complete, commanded]
  rfl

/-- Every static has the cell that the order of first uses gives it. -/
theorem addressOf_static (linked : Linked bootstrap commands program)
    (complete : Complete bootstrap commands) (apart : Apart commands) {use : String × UInt16}
    (used : use ∈ staticUses commands) :
    addressOf program (staticSymbol use) = Vm.staticAddress commands use.1 use.2 := by
  have new := linked.isVariable_static apart used
  rw [isVariable, Bool.and_eq_true, Bool.not_eq_true', Option.isNone_iff_eq_none] at new
  have cut : (fun symbol => decide (symbol ≠ staticSymbol use)) ∘ staticSymbol =
      fun other => decide (other ≠ use) := by
    funext other
    simp [staticSymbol_injective.eq_iff]
  rw [addressOf, new.1, new.2, Assembly.variablesBefore, linked.variableUses complete apart,
    List.takeWhile_map, cut, eraseDups_map staticSymbol_injective, List.length_map]
  rfl

end Linked

end HackToolchain.Codegen
