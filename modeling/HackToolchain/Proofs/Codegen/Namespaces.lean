import HackToolchain.Proofs.Codegen.Acceptance

/-! The names that meet in the assembler's one table. A symbol's text tells labels of either kind from
all other symbols, but nothing keeps a function from being called like a register or like a static;
when none is, every symbol has one role, statics are variables and functions are code. -/
namespace HackToolchain.Codegen

open Assembly (Instruction characters executable isNumeric addressOf labelPosition)
open Vm (Located staticUses)

/-- What a symbol is used for in assembly. -/
inductive Role where
  /-- A register or another name that the assembler knows. -/
  | builtin
  | entry
  | label
  | generated
  | static
  deriving DecidableEq

/-- The functions that commands define or call. -/
def mentionedFunctions (commands : List Located) : List String :=
  commands.filterMap fun command =>
    match command.instruction with
    | .function name _ | .call name _ => some name
    | _ => none

/-- The symbols that a program has for each role. -/
inductive Uses (bootstrap : Bool) (commands : List Located) : Role → String → Prop
  | builtin {symbol : String} (known : (Assembly.predefined.lookup symbol).isSome) :
      Uses bootstrap commands .builtin symbol
  | start (starts : bootstrap) : Uses bootstrap commands .entry entryFunction
  | entry {name : String} (mentioned : name ∈ mentionedFunctions commands) :
      Uses bootstrap commands .entry name
  | label {command : Located} {name : String} (member : command ∈ commands)
      (names : command.instruction ∈ [.label name, .goto name, .ifGoto name]) :
      Uses bootstrap commands .label (command.scope ++ "$" ++ name)
  | generated {n : Nat} {symbol : String} (numbered : Numbered n symbol) :
      Uses bootstrap commands .generated symbol
  | static {use : String × UInt16} (used : use ∈ staticUses commands) :
      Uses bootstrap commands .static (staticSymbol use)

/-- No function is called like a symbol that the assembler knows or like a static. -/
def SeparateFunctions (commands : List Located) : Prop :=
  ∀ name ∈ mentionedFunctions commands, Assembly.predefined.lookup name = none ∧
    name ∉ (staticUses commands).map staticSymbol

instance (commands : List Located) : Decidable (SeparateFunctions commands) :=
  inferInstanceAs (Decidable (∀ name ∈ mentionedFunctions commands,
    Assembly.predefined.lookup name = none ∧ name ∉ (staticUses commands).map staticSymbol))

/-- The only role that a symbol can have, next to these statics. -/
def Role.ofSymbol (statics : List String) (symbol : String) : Role :=
  if symbol.toList.head? = some '$' then .generated
  else if '$' ∈ symbol.toList then .label
  else if (Assembly.predefined.lookup symbol).isSome then .builtin
  else if symbol ∈ statics then .static
  else .entry

theorem ofSymbol_plain {statics : List String} {symbol : String} (plain : '$' ∉ symbol.toList) :
    Role.ofSymbol statics symbol =
      if (Assembly.predefined.lookup symbol).isSome then .builtin
      else if symbol ∈ statics then .static else .entry := by
  have start : symbol.toList.head? ≠ some '$' := fun head => plain (List.mem_of_head? head)
  rw [Role.ofSymbol, if_neg start, if_neg plain]

theorem dollar_not_mem_predefined {symbol : String}
    (known : (Assembly.predefined.lookup symbol).isSome) : '$' ∉ symbol.toList := by
  intro dollar
  have unknown := Assembly.lookup_predefined (by decide +kernel) dollar
  rw [unknown] at known
  contradiction

theorem entryFunction_ne_static (use : String × UInt16) : entryFunction ≠ staticSymbol use := by
  intro same
  have point : '.' ∉ use.2.toNat.repr.toList := Text.not_mem_repr (by decide) _
  have text := congrArg String.toList same
  simp only [staticSymbol, String.toList_append, List.append_assoc] at text
  have parts : "Sys".toList ++ '.' :: "init".toList =
      use.1.toList ++ '.' :: use.2.toNat.repr.toList := text
  obtain ⟨_, number⟩ := split_last (by decide) point parts
  have letter : 'i' ∈ "init".toList := by decide
  rw [number] at letter
  exact Text.not_mem_repr (by decide) _ letter

theorem isSymbol_mentioned {commands : List Located}
    (legal : ∀ command ∈ commands, LegalPlace command) {name : String}
    (mentioned : name ∈ mentionedFunctions commands) : Vm.isSymbol name := by
  obtain ⟨command, member, found⟩ := List.mem_filterMap.mp mentioned
  have named := (legal command member).named
  split at found
  · rename_i instruction
    rw [instruction] at named
    exact Option.some.inj found ▸ named
  · rename_i instruction
    rw [instruction] at named
    exact Option.some.inj found ▸ named
  · contradiction

/-- A symbol has no role but the one its text shows. -/
theorem Uses.ofSymbol {bootstrap : Bool} {commands : List Located} {role : Role} {symbol : String}
    (legal : ∀ command ∈ commands, LegalPlace command) (separate : SeparateFunctions commands)
    (uses : Uses bootstrap commands role symbol) :
    Role.ofSymbol ((staticUses commands).map staticSymbol) symbol = role := by
  cases uses with
  | builtin known => rw [ofSymbol_plain (dollar_not_mem_predefined known), if_pos known]
  | start =>
    have absent : entryFunction ∉ (staticUses commands).map staticSymbol := by
      intro member
      obtain ⟨use, _, same⟩ := List.mem_map.mp member
      exact entryFunction_ne_static use same.symm
    have unknown : Assembly.predefined.lookup entryFunction = none := by decide +kernel
    rw [ofSymbol_plain (by decide), unknown, if_neg absent]
    rfl
  | entry mentioned =>
    obtain ⟨unknown, absent⟩ := separate symbol mentioned
    rw [ofSymbol_plain (dollar_not_mem (isSymbol_mentioned legal mentioned)), unknown,
      if_neg absent]
    rfl
  | @label command name member names =>
    obtain ⟨c, head, start⟩ := head_of_isSymbol (legal command member).scope ("$" ++ name)
    rw [← String.append_assoc] at head
    have other : (command.scope ++ "$" ++ name).toList.head? ≠ some '$' := by
      rw [head]
      rintro ⟨⟩
      contradiction
    have dollar : '$' ∈ (command.scope ++ "$" ++ name).toList := by simp
    rw [Role.ofSymbol, if_neg other, if_pos dollar]
  | generated numbered => rw [Role.ofSymbol, if_pos numbered.starts]
  | @static use used =>
    obtain ⟨user, there, uses⟩ := List.mem_filterMap.mp used
    have file : Vm.isSymbol use.1 := file_of_static? uses ▸ (legal user there).file
    rw [ofSymbol_plain (dollar_not_mem_staticSymbol file), predefined_static,
      if_pos (List.mem_map_of_mem used)]
    rfl

section Roles

variable {bootstrap : Bool} {commands : List Located} {command : Located} {label : Nat}
  {code : List Instruction} {symbol : String}

theorem exists_role_label (member : command ∈ commands)
    (generated : CodeOf label command.file command.scope command.instruction code)
    (defined : symbol ∈ labels code) : ∃ role, Uses bootstrap commands role symbol := by
  rw [generated.labels_eq] at defined
  rcases List.mem_append.mp defined with chosen | numbered
  · have chosen := Option.mem_toList.mp chosen
    cases instruction : command.instruction with
    | label name =>
      rw [instruction] at chosen
      exact ⟨.label, Option.some.inj chosen ▸ .label member (by simp [instruction])⟩
    | function name locals =>
      rw [instruction] at chosen
      obtain rfl := Option.some.inj chosen
      exact ⟨.entry, .entry (List.mem_filterMap.mpr ⟨command, member, by rw [instruction]⟩)⟩
    | _ =>
      rw [instruction] at chosen
      contradiction
  · obtain ⟨_, _, _, numbered⟩ := numbered_of_mem numbered
    exact ⟨.generated, .generated numbered⟩

theorem exists_role_target (member : command ∈ commands) (jumps : target? command = some symbol) :
    ∃ role, Uses bootstrap commands role symbol := by
  unfold target? at jumps
  split at jumps
  · rename_i instruction
    exact ⟨.label, Option.some.inj jumps ▸ .label member (by simp [instruction])⟩
  · rename_i instruction
    exact ⟨.label, Option.some.inj jumps ▸ .label member (by simp [instruction])⟩
  · rename_i instruction
    obtain rfl := Option.some.inj jumps
    exact ⟨.entry, .entry (List.mem_filterMap.mpr ⟨command, member, by rw [instruction]⟩)⟩
  · contradiction

theorem exists_role_address (member : command ∈ commands)
    (generated : CodeOf label command.file command.scope command.instruction code)
    (loaded : symbol ∈ addresses code) :
    isNumeric symbol ∨ ∃ role, Uses bootstrap commands role symbol := by
  cases generated.addressed symbol loaded with
  | number => exact .inl (Assembly.isNumeric_repr _)
  | predefined known => exact .inr ⟨.builtin, .builtin known⟩
  | label defined => exact .inr (exists_role_label member generated defined)
  | target jumps => exact .inr (exists_role_target member jumps)
  | static uses =>
    exact .inr ⟨.static, .static (List.mem_filterMap.mpr ⟨command, member, uses⟩)⟩

theorem exists_role_prologue (symbols : symbol ∈ addresses (prologue bootstrap) ++
    labels (prologue bootstrap)) :
    isNumeric symbol ∨ ∃ role, Uses bootstrap commands role symbol := by
  cases bootstrap with
  | false => contradiction
  | true =>
    have all : ∀ symbol ∈ addresses (prologue true) ++ labels (prologue true),
        isNumeric symbol ∨ (Assembly.predefined.lookup symbol).isSome ∨
          symbol = entryFunction ∨ symbol = returnLabel 0 := by decide +kernel
    rcases all symbol symbols with number | known | rfl | rfl
    · exact .inl number
    · exact .inr ⟨.builtin, .builtin known⟩
    · exact .inr ⟨.entry, .start rfl⟩
    · exact .inr ⟨.generated, .generated (numbered_returnLabel 0)⟩

end Roles

/-- The symbols of a program that was translated all have roles. -/
theorem exists_role {bootstrap : Bool} {commands : List Located} {codes : List (List Instruction)}
    (generates : List.Forall₂ Generates commands codes) {symbol : String}
    (symbols : symbol ∈ addresses (prologue bootstrap ++ codes.flatten) ∨
      symbol ∈ labels (prologue bootstrap ++ codes.flatten)) :
    isNumeric symbol ∨ ∃ role, Uses bootstrap commands role symbol := by
  rw [addresses_append, labels_append, List.mem_append, List.mem_append] at symbols
  rcases symbols with (start | loaded) | (start | defined)
  · exact exists_role_prologue (List.mem_append_left _ start)
  · obtain ⟨i, member, found⟩ := List.mem_filterMap.mp loaded
    obtain ⟨command, there, code, ⟨label, generated⟩, member⟩ := exists_generated generates member
    exact exists_role_address there generated (List.mem_filterMap.mpr ⟨i, member, found⟩)
  · exact exists_role_prologue (List.mem_append_right _ start)
  · obtain ⟨command, there, code, ⟨label, generated⟩, member⟩ :=
      exists_generated generates (mem_labels.mp defined)
    exact .inr (exists_role_label there generated (mem_labels.mpr member))

theorem linked_translation {bootstrap annotate : Bool} {units : List (String × String)}
    (names : ∀ unit ∈ units, Vm.isSymbol unit.1)
    (translated : (translation bootstrap annotate units).failure? = none)
    (assembled : (machineCode bootstrap annotate units).failure? = none) :
    let program := (translation bootstrap annotate units).writer.sink.code
    Linked bootstrap (located units) program ∧
      List.Forall₂ (Assembly.Emits program) (executable program)
        (machineCode bootstrap annotate units).done := by
  obtain ⟨codes, generates, written⟩ := code_translation names translated
  have consistent := consistent_translation names translated
  obtain ⟨layout, laid, numbers, emitted⟩ :=
    Assembly.exists_layout (Sink.parse_bytes consistent.whole consistent.legal) assembled
  have legal := legal_located names
  have wellFormed : WellFormed (translation bootstrap annotate units).writer.sink.code := by
    rw [written]
    exact wellFormed_program generates legal
  have loadable := Assembly.loadable_of_sparse laid numbers wellFormed.sparse
  exact ⟨⟨⟨codes, generates, written⟩, legal, ⟨layout, laid⟩, loadable⟩, emitted⟩

theorem SeparateFunctions.apart {commands : List Located} (separate : SeparateFunctions commands) :
    Apart commands := by
  intro command member use used called
  unfold Vm.Instruction.isFunction at called
  split at called
  · rename_i name locals instruction
    obtain rfl := of_decide_eq_true called
    have mentioned : staticSymbol use ∈ mentionedFunctions commands :=
      List.mem_filterMap.mpr ⟨command, member, by rw [instruction]⟩
    exact (separate _ mentioned).2 (List.mem_map_of_mem used)
  · contradiction

theorem mentioned_of_functionNames {commands : List Located} {name : String}
    (defined : name ∈ functionNames commands) : name ∈ mentionedFunctions commands := by
  obtain ⟨command, member, found⟩ := List.mem_filterMap.mp defined
  refine List.mem_filterMap.mpr ⟨command, member, ?_⟩
  split at found
  · rename_i instruction
    rw [instruction]
    exact found
  · contradiction

namespace Linked

variable {bootstrap : Bool} {commands : List Located} {program : List Instruction}

/-- A static is a variable and no label. -/
theorem static_variable (linked : Linked bootstrap commands program) (apart : Apart commands)
    {use : String × UInt16} (used : use ∈ staticUses commands) :
    .label (staticSymbol use) ∉ program ∧ addressOf program (staticSymbol use) =
      Assembly.firstVariable + Assembly.variablesBefore program (staticSymbol use) := by
  have new := linked.isVariable_static apart used
  constructor
  · intro defined
    rw [isVariable_label defined] at new
    contradiction
  · rw [isVariable, Bool.and_eq_true, Bool.not_eq_true', Option.isNone_iff_eq_none] at new
    rw [addressOf, new.1, new.2]
    rfl

/-- The name of a function that is no predefined symbol is a label. -/
theorem function_label (linked : Linked bootstrap commands program) {name : String}
    (defined : name ∈ functionNames commands)
    (unknown : Assembly.predefined.lookup name = none) :
    .label name ∈ program ∧ addressOf program name = labelPosition program name := by
  have found : (Vm.functionIndex? commands name).isSome := by
    obtain ⟨command, member, function⟩ := List.mem_filterMap.mp defined
    rw [Vm.functionIndex?, List.findIdx?_isSome, List.any_eq_true]
    refine ⟨command, member, ?_⟩
    split at function
    · rename_i instruction
      rw [instruction]
      exact decide_eq_true (Option.some.inj function)
    · contradiction
  obtain ⟨index, found⟩ := Option.isSome_iff_exists.mp found
  obtain ⟨placed, symbol⟩ := linked.functionAt found
  have fixed : Assembly.fixedAddress? program name = some (labelPosition program name) := by
    rw [Assembly.fixedAddress?, unknown, if_pos placed.member]
    rfl
  constructor
  · exact placed.member
  · rw [addressOf, isNumeric_of_isSymbol symbol, fixed]
    rfl

end Linked

/-- If functions are called neither like symbols that the assembler knows nor like statics, then every
symbol of a program has one role. Once the program assembles, its statics are variables and the names
of its functions are places in its code. -/
theorem symbols_separated {bootstrap annotate : Bool} {units : List (String × String)}
    (names : ∀ unit ∈ units, Vm.isSymbol unit.1)
    (translated : (translation bootstrap annotate units).failure? = none)
    (separate : SeparateFunctions (located units)) :
    let commands := located units
    let program := (translation bootstrap annotate units).writer.sink.code
    (∀ role role' symbol, Uses bootstrap commands role symbol →
      Uses bootstrap commands role' symbol → role = role') ∧
    (∀ symbol, symbol ∈ addresses program ∨ symbol ∈ labels program →
      isNumeric symbol ∨ ∃ role, Uses bootstrap commands role symbol) ∧
    ((machineCode bootstrap annotate units).failure? = none →
      List.Forall₂ (Assembly.Emits program) (executable program)
        (machineCode bootstrap annotate units).done ∧
      (∀ use ∈ staticUses commands, .label (staticSymbol use) ∉ program ∧
        addressOf program (staticSymbol use) =
          Assembly.firstVariable + Assembly.variablesBefore program (staticSymbol use)) ∧
      ∀ name ∈ functionNames commands, Assembly.predefined.lookup name = none ∧
        .label name ∈ program ∧ addressOf program name = labelPosition program name) := by
  intro commands program
  have legal := legal_located names
  refine ⟨?_, ?_, ?_⟩
  · intro role role' symbol first second
    exact (first.ofSymbol legal separate).symm.trans (second.ofSymbol legal separate)
  · intro symbol symbols
    obtain ⟨codes, generates, written⟩ := code_translation names translated
    rw [show program = _ from written] at symbols
    exact exists_role generates symbols
  · intro assembled
    obtain ⟨linked, emitted⟩ := linked_translation names translated assembled
    refine ⟨emitted, fun use used => linked.static_variable separate.apart used, ?_⟩
    intro name defined
    have unknown := (separate name (mentioned_of_functionNames defined)).1
    exact ⟨unknown, linked.function_label defined unknown⟩

/-- Flips a static. -/
def flips : List (String × String) :=
  [("Main", "function Main.flip 0\npush static 0\nnot\npop static 0\npush static 0\nreturn")]

theorem symbols_separated_flips :
    let program := (translation false false flips).writer.sink.code
    addressOf program (staticSymbol ("Main", 0)) =
        Assembly.firstVariable + Assembly.variablesBefore program (staticSymbol ("Main", 0)) ∧
      addressOf program "Main.flip" = labelPosition program "Main.flip" := by
  have translated : (translation false false flips).failure? = none := by decide +kernel
  have assembled : (machineCode false false flips).failure? = none := by decide +kernel
  obtain ⟨_, _, resolves⟩ :=
    symbols_separated (by decide +kernel) translated (by decide +kernel)
  obtain ⟨_, statics, functions⟩ := resolves assembled
  exact ⟨(statics ("Main", 0) (by decide +kernel)).2,
    (functions "Main.flip" (by decide +kernel)).2.2⟩

/-- A function called like a static, and calls of functions that are called like a register or that
no unit defines. -/
def mixedNames : List (String × String) :=
  [("Main", "function Main.0 0\npush static 0\ncall SP 0\ncall Other.f 0")]

theorem symbols_mixed :
    let commands := located mixedNames
    let program := (translation false false mixedNames).writer.sink.code
    (∀ unit ∈ mixedNames, Vm.isSymbol unit.1) ∧
      (translation false false mixedNames).failure? = none ∧
      (machineCode false false mixedNames).failure? = none ∧
      (Uses false commands .entry (staticSymbol ("Main", 0)) ∧
        Uses false commands .static (staticSymbol ("Main", 0)) ∧
        .label (staticSymbol ("Main", 0)) ∈ program ∧
        addressOf program (staticSymbol ("Main", 0)) = 0) ∧
      (Uses false commands .entry "SP" ∧ Uses false commands .builtin "SP") ∧
      Uses false commands .entry "Other.f" ∧ isVariable program "Other.f" := by
  intro commands program
  have static : Uses false commands .static (staticSymbol ("Main", 0)) :=
    .static (by decide +kernel)
  have builtin : Uses false commands .builtin "SP" := .builtin (by decide +kernel)
  refine ⟨by decide +kernel, by decide +kernel, by decide +kernel, ?_, ?_, ?_⟩
  · exact ⟨.entry (by decide +kernel), static, by decide +kernel, by decide +kernel⟩
  · exact ⟨.entry (by decide +kernel), builtin⟩
  · exact ⟨.entry (by decide +kernel), by decide +kernel⟩

end HackToolchain.Codegen
