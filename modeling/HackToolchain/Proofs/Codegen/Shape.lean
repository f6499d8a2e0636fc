import HackToolchain.Proofs.Codegen.Generation
import HackToolchain.Proofs.Assembly.Interpreter
import HackToolchain.Proofs.Assembly.Spelling
import HackToolchain.Proofs.Vm.Names

/-! What generated code has in common, whatever the command: its symbols and expressions can be read
back, its expressions are documented, and no more of its words load an address than compute. -/
namespace HackToolchain.Codegen

open Assembly (Instruction Operand Operator Jump IsSymbolText executable maxAddress)

/-- An instruction that code is made of. -/
def Legal : Instruction → Prop
  | .address symbol | .label symbol => IsSymbolText symbol
  | .compute _ comp _ => comp ∈ Assembly.documented

def isAddress : Instruction → Bool
  | .address _ => true
  | _ => false

def isCompute : Instruction → Bool
  | .compute .. => true
  | _ => false

structure WellFormed (code : List Instruction) : Prop where
  legal : ∀ i ∈ code, Legal i
  balanced : code.countP isAddress ≤ code.countP isCompute

theorem Legal.writable {i : Instruction} (legal : Legal i) : i.Writable := by
  have documented : ∀ comp ∈ Assembly.documented, comp.Writable := by
    simp [Assembly.documented, Assembly.Comp.Writable]
  cases i with
  | address symbol | label symbol => exact legal
  | compute dest comp jump => exact documented comp legal

namespace WellFormed

variable {first second : List Instruction}

theorem nil : WellFormed [] :=
  ⟨by simp, by simp⟩

theorem append (before : WellFormed first) (after : WellFormed second) :
    WellFormed (first ++ second) where
  legal := List.forall_mem_append.mpr ⟨before.legal, after.legal⟩
  balanced := by
    rw [List.countP_append, List.countP_append]
    exact Nat.add_le_add before.balanced after.balanced

theorem flatten {codes : List (List Instruction)} (all : ∀ code ∈ codes, WellFormed code) :
    WellFormed codes.flatten := by
  induction codes with
  | nil => exact nil
  | cons code rest ih =>
    obtain ⟨first, rest⟩ := List.forall_mem_cons.mp all
    exact first.append (ih rest)

theorem flatMap {items : List α} {f : α → List Instruction}
    (all : ∀ item ∈ items, WellFormed (f item)) : WellFormed (items.flatMap f) := by
  rw [List.flatMap_def]
  exact flatten (by simpa using all)

theorem documented (wellFormed : WellFormed first) : Assembly.Documented first :=
  fun _ _ _ member => wellFormed.legal _ member

/-- No more than half of the words can stand for a variable. -/
theorem sparse (wellFormed : WellFormed first) :
    2 * (first.filterMap Instruction.symbolic?).length ≤ (executable first).length := by
  have symbols (code : List Instruction) :
      (code.filterMap Instruction.symbolic?).length ≤ code.countP isAddress := by
    induction code with
    | nil => simp
    | cons i rest ih =>
      cases i with
      | address symbol =>
        rw [List.filterMap_cons, List.countP_cons_of_pos rfl]
        split
        · exact Nat.le_succ_of_le ih
        · exact Nat.succ_le_succ ih
      | compute dest comp jump | label symbol => exact ih
  have words (code : List Instruction) :
      (executable code).length = code.countP isAddress + code.countP isCompute := by
    induction code with
    | nil => rfl
    | cons i rest ih =>
      rw [List.countP_cons, List.countP_cons, Assembly.executable_cons]
      cases i <;> simp [isAddress, isCompute, Instruction.isLabel, ih] <;> omega
  have bound := wellFormed.balanced
  have := symbols first
  have := words first
  omega

end WellFormed

theorem isSymbolChar_of_isIdentifierStart {c : Char} (start : Vm.isIdentifierStart c) :
    Assembly.isSymbolChar c := by
  simp only [Vm.isIdentifierStart, Assembly.isSymbolChar, Char.isAlphanum, Bool.or_eq_true,
    decide_eq_true_eq] at start ⊢
  tauto

theorem isSymbolText_of_isSymbol {name : String} (symbol : Vm.isSymbol name) :
    IsSymbolText name := by
  unfold Vm.isSymbol at symbol
  split at symbol
  · contradiction
  · rename_i c rest text
    simp only [Bool.and_eq_true, List.all_eq_true, Vm.isIdentifierRest, Bool.or_eq_true,
      decide_eq_true_eq] at symbol
    refine ⟨by simp [text], ?_⟩
    rw [text, List.forall_mem_cons]
    refine ⟨isSymbolChar_of_isIdentifierStart symbol.1, ?_⟩
    intro other member
    rcases symbol.2 other member with ⟨(start | digit) | hyphen, different⟩
    · exact isSymbolChar_of_isIdentifierStart start
    · simp [Assembly.isSymbolChar, Char.isAlphanum, digit]
    · exact absurd hyphen different

theorem isSymbolChar_repr (n : Nat) : ∀ c ∈ n.repr.toList, Assembly.isSymbolChar c := by
  intro c member
  have digit := Text.isDigit_of_mem_repr member
  simp [Assembly.isSymbolChar, Char.isAlphanum, digit]

theorem isSymbolText_repr (n : Nat) : IsSymbolText n.repr :=
  ⟨by simp [Nat.toList_repr, Nat.toDigits_ne_nil], isSymbolChar_repr n⟩

theorem isSymbolText_append {first second : String} (start : IsSymbolText first)
    (rest : ∀ c ∈ second.toList, Assembly.isSymbolChar c) : IsSymbolText (first ++ second) := by
  rw [IsSymbolText, String.toList_append, List.forall_mem_append]
  exact ⟨by simp [start.1], start.2, rest⟩

theorem isSymbolText_numbered {text : String} (start : IsSymbolText text) (n : Nat) :
    IsSymbolText (text ++ n.repr) :=
  isSymbolText_append start (isSymbolChar_repr n)

/-- Two names joined to a symbol; either of them may be missing. -/
theorem isSymbolText_joined {first joint second : String}
    (start : ∀ c ∈ first.toList, Assembly.isSymbolChar c) (middle : IsSymbolText joint)
    (rest : ∀ c ∈ second.toList, Assembly.isSymbolChar c) :
    IsSymbolText (first ++ joint ++ second) := by
  apply isSymbolText_append _ rest
  rw [IsSymbolText, String.toList_append, List.forall_mem_append]
  exact ⟨by simp [middle.1], start, middle.2⟩

theorem isSymbolText_register {symbol : String}
    (member : symbol ∈ "SP" :: "R13" :: "R14" :: savedRegisters) : IsSymbolText symbol := by
  have all : ∀ symbol ∈ "SP" :: "R13" :: "R14" :: savedRegisters, IsSymbolText symbol := by
    decide
  exact all symbol member

theorem isSymbolText_sp : IsSymbolText "SP" :=
  isSymbolText_register (.head _)

theorem isSymbolText_r13 : IsSymbolText "R13" :=
  isSymbolText_register (.tail _ (.head _))

theorem isSymbolText_r14 : IsSymbolText "R14" :=
  isSymbolText_register (.tail _ (.tail _ (.head _)))

theorem isSymbolText_saved {symbol : String} (member : symbol ∈ savedRegisters) :
    IsSymbolText symbol :=
  isSymbolText_register (.tail _ (.tail _ (.tail _ member)))

/-- How a cell is found, whether or not it may be used. -/
def location (fileName : String) (index : Nat) : Vm.Segment → Place
  | .local => .based "LCL"
  | .argument => .based "ARG"
  | .this => .based "THIS"
  | .that => .based "THAT"
  | .temp => .named ("R" ++ (5 + index).repr)
  | .pointer => .named (if index = 0 then "THIS" else "THAT")
  | .static => .named (fileName ++ "." ++ index.repr)
  | .constant => .literal

/-- How many cells a segment has at most. -/
def extent : Vm.Segment → Nat
  | .local | .argument | .this | .that => maxAddress + 1
  | .temp => 8
  | .pointer => 2
  | .static | .constant => 65536

theorem place_eq_ok {fileName : String} {segment : Vm.Segment} {index : UInt16} {found : Place} :
    place fileName segment index = .ok found ↔
      index.toNat < extent segment ∧ location fileName index.toNat segment = found := by
  have within {limit : Nat} {p : Place} :
      (if index.toNat < limit then Except.ok p
        else .error (Vm.CodeError.indexOutOfRange segment index)) = .ok found ↔
        index.toNat < limit ∧ p = found := by
    split <;> simp [*]
  have any (p : Place) : (Except.ok p : Except Vm.CodeError Place) = .ok found ↔
      index.toNat < 65536 ∧ p = found := by
    simp [index.toNat_lt]
  cases segment <;> first | exact within | exact any _

theorem mem_savedRegisters {fileName symbol : String} {segment : Vm.Segment} {index : Nat}
    (found : location fileName index segment = .based symbol) : symbol ∈ savedRegisters := by
  cases segment <;> cases found <;> decide

theorem isSymbolText_named {fileName symbol : String}
    (file : ∀ c ∈ fileName.toList, Assembly.isSymbolChar c) {segment : Vm.Segment} {index : Nat}
    (found : location fileName index segment = .named symbol) :
    IsSymbolText symbol := by
  cases segment with
  | «local» | argument | this | that | constant => contradiction
  | temp =>
    obtain rfl := Place.named.inj found
    show IsSymbolText ("R" ++ (5 + index).repr)
    exact isSymbolText_numbered (by decide) (5 + index)
  | static =>
    obtain rfl := Place.named.inj found
    show IsSymbolText (fileName ++ "." ++ index.repr)
    exact isSymbolText_joined file (by decide) (isSymbolChar_repr index)
  | pointer =>
    obtain rfl := Place.named.inj found
    show IsSymbolText (if index = 0 then "THIS" else "THAT")
    split <;> exact isSymbolText_register (by decide)

theorem documented_operand (x : Operand) : .unary none x ∈ Assembly.documented := by
  cases x <;> decide

namespace WellFormed

theorem addressed {symbol : String} (legal : IsSymbolText symbol) (dest : Machine.Destination)
    (jump : Option Jump) {comp : Assembly.Comp} (documented : comp ∈ Assembly.documented) :
    WellFormed [.address symbol, .compute dest comp jump] :=
  ⟨List.forall_mem_cons.mpr ⟨legal, List.forall_mem_singleton.mpr documented⟩,
    Nat.le_refl 1⟩

theorem computed (dest : Machine.Destination) (jump : Option Jump) {comp : Assembly.Comp}
    (documented : comp ∈ Assembly.documented) : WellFormed [.compute dest comp jump] :=
  ⟨List.forall_mem_singleton.mpr documented, by simp [isAddress]⟩

theorem labelled {symbol : String} (legal : IsSymbolText symbol) : WellFormed [.label symbol] :=
  ⟨List.forall_mem_singleton.mpr legal, by simp [isAddress]⟩

theorem copied (dest : Machine.Destination) (x : Operand) : WellFormed [copy dest x] :=
  computed dest none (documented_operand x)

theorem loadD {symbol : String} (legal : IsSymbolText symbol) : WellFormed (loadD symbol) :=
  addressed legal toD none (documented_operand .m)

theorem storeD {symbol : String} (legal : IsSymbolText symbol) : WellFormed (storeD symbol) :=
  addressed legal toM none (documented_operand .d)

theorem jumpIf {label : String} (legal : IsSymbolText label) (x : Operand) (jump : Jump) :
    WellFormed (jumpIf label x jump) :=
  addressed legal nowhere jump (documented_operand x)

theorem push (x : Operand) : WellFormed (push x) :=
  (addressed isSymbolText_sp toA none (documented_operand .m)).append <|
    (copied toM x).append (addressed isSymbolText_sp toM none (by decide))

theorem popToAddress : WellFormed popToAddress :=
  (addressed isSymbolText_sp toM none (by decide)).append (copied toA .m)

theorem popD : WellFormed popD :=
  popToAddress.append (copied toD .m)

theorem arithmetic (label : Nat) (op : Vm.ArithmeticOp) : WellFormed (arithmetic label op) := by
  have binary {x y : Operand} {op : Operator}
        (documented : Assembly.Comp.binary x op y ∈ Assembly.documented) :
      WellFormed (binary x op y ++ Codegen.push .d) :=
    popD |>.append popToAddress |>.append (computed toD none documented) |>.append (push .d)
  have unary {op : Operator}
        (documented : Assembly.Comp.unary (some op) .m ∈ Assembly.documented) :
      WellFormed (unary op) :=
    popToAddress |>.append (computed toD none documented) |>.append (push .d)
  have comparison (test : Jump) : WellFormed (comparison label test) := by
    have passed : IsSymbolText (trueLabel label) := isSymbolText_numbered (by decide) label
    have done : IsSymbolText (endLabel (label + 1)) :=
      isSymbolText_numbered (by decide) (label + 1)
    have subtracts : WellFormed (Codegen.binary .m .minus .d) :=
      popD |>.append popToAddress |>.append (computed toD none (by decide))
    have outcomes : WellFormed [.label (trueLabel label), apply toD .minus .one,
        .label (endLabel (label + 1))] :=
      (labelled passed).append ((computed toD none (by decide)).append (labelled done))
    have decides : WellFormed (truth label (label + 1) test) :=
      jumpIf passed .d test |>.append (copied toD .zero) |>.append (jumpIf done .zero .always)
        |>.append outcomes
    exact subtracts |>.append decides |>.append (push .d)
  cases op with
  | add | sub | and | or => exact binary (by decide)
  | neg | not => exact unary (by decide)
  | eq | gt | lt => exact comparison _

end WellFormed

/-- Everything that code generation can answer, for a command in a file and a scope when `label` is
the next label number. -/
inductive CodeOf (label : Nat) (file scope : String) : Vm.Instruction → List Instruction → Prop
  | arithmetic (op : Vm.ArithmeticOp) :
      CodeOf label file scope (.arithmetic op) (arithmetic label op)
  | pushConstant {index : UInt16} (bound : index.toNat ≤ maxAddress) :
      CodeOf label file scope (.push .constant index)
        ([constant index.toNat, copy toD .a] ++ push .d)
  | pushBased {segment : Vm.Segment} {index : UInt16} {register : String}
      (bound : index.toNat < extent segment)
      (found : location file index.toNat segment = .based register) :
      CodeOf label file scope (.push segment index)
        ([constant index.toNat, copy toD .a, .address register, copy toA .m,
          combine toA .d .plus .a, copy toD .m] ++ push .d)
  | pushNamed {segment : Vm.Segment} {index : UInt16} {symbol : String}
      (bound : index.toNat < extent segment)
      (found : location file index.toNat segment = .named symbol) :
      CodeOf label file scope (.push segment index) (loadD symbol ++ push .d)
  | popBased {segment : Vm.Segment} {index : UInt16} {register : String}
      (bound : index.toNat < extent segment)
      (found : location file index.toNat segment = .based register) :
      CodeOf label file scope (.pop segment index)
        ([.address register, copy toD .m, constant index.toNat, combine toD .d .plus .a] ++
          storeD "R13" ++ popD ++ [.address "R13", copy toA .m, copy toM .d])
  | popNamed {segment : Vm.Segment} {index : UInt16} {symbol : String}
      (bound : index.toNat < extent segment)
      (found : location file index.toNat segment = .named symbol) :
      CodeOf label file scope (.pop segment index) (popD ++ storeD symbol)
  | label (name : String) : CodeOf label file scope (.label name) [.label (scope ++ "$" ++ name)]
  | goto (target : String) :
      CodeOf label file scope (.goto target) (jumpTo (scope ++ "$" ++ target))
  | ifGoto (target : String) :
      CodeOf label file scope (.ifGoto target) (popD ++ jumpIf (scope ++ "$" ++ target) .d .ne)
  | function (name : String) (locals : UInt16) :
      CodeOf label file scope (.function name locals) (enter name locals.toNat)
  | call {function : String} {arguments : UInt16}
      (bound : arguments.toNat + frameSize ≤ maxAddress) :
      CodeOf label file scope (.call function arguments) (call label function arguments.toNat)
  | return : CodeOf label file scope .return leave

theorem eq_constant_of_location {fileName : String} {index : Nat} {segment : Vm.Segment}
    (literal : location fileName index segment = .literal) : segment = .constant := by
  cases segment <;> first | rfl | contradiction

theorem codeOf_generate {s after : Scope} {i : Vm.Instruction} {code : List Instruction}
    (generated : s.generate i = .ok (code, after)) :
    CodeOf s.nextLabel s.fileName s.name i code := by
  cases i with
  | arithmetic op => exact (Prod.mk.inj (Except.ok.inj generated)).1 ▸ .arithmetic op
  | push segment index =>
    obtain ⟨found, placed, generated⟩ := bind_eq_ok generated
    obtain ⟨code, pushed, generated⟩ := bind_eq_ok generated
    obtain ⟨rfl, rfl⟩ := Prod.mk.inj (Except.ok.inj generated)
    obtain ⟨bound, located⟩ := place_eq_ok.mp placed
    cases found with
    | literal =>
      obtain rfl := eq_constant_of_location located
      simp only [pushFrom] at pushed
      split at pushed
      · exact Except.ok.inj pushed ▸ .pushConstant ‹_›
      · contradiction
    | based register => exact Except.ok.inj pushed ▸ .pushBased bound located
    | named symbol => exact Except.ok.inj pushed ▸ .pushNamed bound located
  | pop segment index =>
    obtain ⟨found, placed, generated⟩ := bind_eq_ok generated
    obtain ⟨code, popped, generated⟩ := bind_eq_ok generated
    obtain ⟨rfl, rfl⟩ := Prod.mk.inj (Except.ok.inj generated)
    obtain ⟨bound, located⟩ := place_eq_ok.mp placed
    cases found with
    | literal => contradiction
    | based register => exact Except.ok.inj popped ▸ .popBased bound located
    | named symbol => exact Except.ok.inj popped ▸ .popNamed bound located
  | label name =>
    obtain ⟨_, _, generated⟩ := bind_eq_ok generated
    exact (Prod.mk.inj (Except.ok.inj generated)).1 ▸ .label name
  | goto target => exact (Prod.mk.inj (Except.ok.inj generated)).1 ▸ .goto target
  | ifGoto target => exact (Prod.mk.inj (Except.ok.inj generated)).1 ▸ .ifGoto target
  | function name locals =>
    obtain ⟨_, _, generated⟩ := bind_eq_ok generated
    exact (Prod.mk.inj (Except.ok.inj generated)).1 ▸ .function name locals
  | call function arguments =>
    simp only [Scope.generate] at generated
    split at generated
    · exact (Prod.mk.inj (Except.ok.inj generated)).1 ▸ .call ‹_›
    · contradiction
  | «return» => exact (Prod.mk.inj (Except.ok.inj generated)).1 ▸ .return

/-- Only names taken and label numbers used up can change. -/
theorem generate_scope {s after : Scope} {i : Vm.Instruction} {code : List Instruction}
    (generated : s.generate i = .ok (code, after)) :
    after.fileName = s.fileName ∧ after.function? = s.function? := by
  have defined {symbol : String} {taken : Scope} (define : s.define symbol = .ok taken) :
      taken.fileName = s.fileName ∧ taken.function? = s.function? := by
    unfold Scope.define at define
    split at define
    · contradiction
    · exact Except.ok.inj define ▸ ⟨rfl, rfl⟩
  cases i with
  | push segment index | pop segment index =>
    obtain ⟨_, _, generated⟩ := bind_eq_ok generated
    obtain ⟨_, _, generated⟩ := bind_eq_ok generated
    exact (Prod.mk.inj (Except.ok.inj generated)).2 ▸ ⟨rfl, rfl⟩
  | label name | function name locals =>
    obtain ⟨taken, define, generated⟩ := bind_eq_ok generated
    exact (Prod.mk.inj (Except.ok.inj generated)).2 ▸ defined define
  | call function arguments =>
    simp only [Scope.generate] at generated
    split at generated
    · exact (Prod.mk.inj (Except.ok.inj generated)).2 ▸ ⟨rfl, rfl⟩
    · contradiction
  | arithmetic op | goto target | ifGoto target | «return» =>
    exact (Prod.mk.inj (Except.ok.inj generated)).2 ▸ ⟨rfl, rfl⟩

theorem WellFormed.frameCell (back : Nat) : WellFormed (frameCell back) :=
  .append (.addressed (isSymbolText_repr back) toA none (by decide)) (.copied toD .m)

theorem WellFormed.call (label : Nat) {function : String} (legal : IsSymbolText function)
    (arguments : Nat) : WellFormed (call label function arguments) := by
  have back : IsSymbolText (returnLabel label) :=
    isSymbolText_numbered (by decide) label
  have arg : IsSymbolText "ARG" := isSymbolText_saved (by decide)
  have lcl : IsSymbolText "LCL" := isSymbolText_saved (by decide)
  have returns : WellFormed ([.address (returnLabel label), copy toD .a] ++ Codegen.push .d) :=
    .append (.addressed back toD none (documented_operand _)) (.push .d)
  have saves : WellFormed
      (savedRegisters.flatMap fun register => Codegen.loadD register ++ Codegen.push .d) :=
    .flatMap fun symbol member => .append (.loadD (isSymbolText_saved member)) (.push .d)
  have lowers : WellFormed [constant (arguments + frameSize), combine toD .d .minus .a] :=
    .addressed (isSymbolText_repr _) toD none (by decide)
  exact returns |>.append saves |>.append (.loadD isSymbolText_sp) |>.append lowers
    |>.append (.storeD arg) |>.append (.loadD isSymbolText_sp) |>.append (.storeD lcl)
    |>.append (.jumpIf legal .zero .always) |>.append (.labelled back)

theorem WellFormed.leave : WellFormed leave := by
  have lcl : IsSymbolText "LCL" := isSymbolText_saved (by decide)
  have arg : IsSymbolText "ARG" := isSymbolText_saved (by decide)
  have gives : WellFormed [.address "ARG", copy toA .m, copy toM .d] :=
    .append (.addressed arg toA none (documented_operand _)) (.copied toM .d)
  have restored : WellFormed ((savedRegisters.reverse.zipIdx 1).flatMap fun entry =>
      Codegen.loadD "R13" ++ Codegen.frameCell entry.2 ++ Codegen.storeD entry.1) := by
    apply WellFormed.flatMap
    intro entry member
    have saved := List.mem_reverse.mp (List.fst_mem_of_mem_zipIdx member)
    exact .append (.append (.loadD isSymbolText_r13) (.frameCell entry.2))
      (.storeD (isSymbolText_saved saved))
  have jumps : WellFormed [.address "R14", copy toA .m,
      .compute nowhere (.unary none .zero) (some .always)] :=
    .append (.addressed isSymbolText_r14 toA none (documented_operand _))
      (.computed nowhere Jump.always (documented_operand _))
  exact WellFormed.loadD lcl |>.append (.storeD isSymbolText_r13) |>.append (.frameCell frameSize)
    |>.append (.storeD isSymbolText_r14) |>.append .popD |>.append gives
    |>.append (.addressed arg toD none (by decide)) |>.append (.storeD isSymbolText_sp)
    |>.append restored |>.append jumps

theorem CodeOf.wellFormed {label : Nat} {file scope : String} {i : Vm.Instruction}
    {code : List Instruction} (generated : CodeOf label file scope i code) (named : i.Named)
    (files : ∀ c ∈ file.toList, Assembly.isSymbolChar c)
    (scopes : ∀ c ∈ scope.toList, Assembly.isSymbolChar c) : WellFormed code := by
  have within {name : String} (symbol : Vm.isSymbol name) : IsSymbolText (scope ++ "$" ++ name) :=
    isSymbolText_joined scopes (by decide) (isSymbolText_of_isSymbol symbol).2
  have based {symbol : String} {segment : Vm.Segment} {index : Nat}
      (found : location file index segment = .based symbol) : IsSymbolText symbol :=
    isSymbolText_saved (mem_savedRegisters found)
  cases generated with
  | arithmetic op => exact .arithmetic label op
  | pushConstant bound =>
    exact .append (.addressed (isSymbolText_repr _) toD none (documented_operand _)) (.push .d)
  | pushBased bound found =>
    have adds : WellFormed [combine toA .d .plus .a, copy toD .m] :=
      .append (.computed toA none (by decide)) (.copied toD .m)
    exact .append (.append (.addressed (isSymbolText_repr _) toD none (documented_operand _)) <|
      .append (.addressed (based found) toA none (documented_operand _)) adds) (.push .d)
  | pushNamed bound found => exact .append (.loadD (isSymbolText_named files found)) (.push .d)
  | @popBased segment index register bound found =>
    have adds : WellFormed ([.address register, copy toD .m] ++
        [constant index.toNat, combine toD .d .plus .a]) :=
      .append (.loadD (based found)) (.addressed (isSymbolText_repr _) toD none (by decide))
    have stores : WellFormed [.address "R13", copy toA .m, copy toM .d] :=
      .append (.addressed isSymbolText_r13 toA none (documented_operand _)) (.copied toM .d)
    exact adds |>.append (.storeD isSymbolText_r13) |>.append .popD |>.append stores
  | popNamed bound found => exact .append .popD (.storeD (isSymbolText_named files found))
  | label name => exact .labelled (within named)
  | goto target => exact .jumpIf (within named) .zero .always
  | ifGoto target => exact .append .popD (.jumpIf (within named) .d .ne)
  | function name locals =>
    apply WellFormed.append (.labelled (isSymbolText_of_isSymbol named))
    apply WellFormed.flatten
    intro code member
    exact List.eq_of_mem_replicate member ▸ .push .zero
  | call bound => exact .call label (isSymbolText_of_isSymbol named) _
  | «return» => exact .leave

/-- How many words the code of an instruction has, wherever it stands. -/
def size (i : Vm.Instruction) : Nat :=
  match Scope.empty.generate i with
  | .ok (code, _) => (executable code).length
  | .error _ => 0

theorem place_of_bound (fileName : String) {segment : Vm.Segment} {index : UInt16}
    (bound : index.toNat < extent segment) :
    place fileName segment index = .ok (location fileName index.toNat segment) :=
  place_eq_ok.mpr ⟨bound, rfl⟩

theorem CodeOf.length_executable {label : Nat} {file scope : String} {i : Vm.Instruction}
    {code : List Instruction} (generated : CodeOf label file scope i code) :
    (executable code).length = size i := by
  have free (symbol : String) : Scope.empty.define symbol =
      .ok { Scope.empty with defined := Scope.empty.defined.insert symbol } := by
    simp [Scope.define, Scope.empty]
  cases generated with
  | arithmetic op => cases op <;> rfl
  | @pushConstant index bound =>
    have small : index.toNat < extent .constant := index.toNat_lt
    simp only [size, Scope.generate, place_of_bound _ small, location, pushFrom, if_pos bound]
    rfl
  | @pushBased segment index register bound found | @pushNamed segment index symbol bound found =>
    simp only [size, Scope.generate, place_of_bound _ bound]
    cases segment <;> first | contradiction | rfl
  | @popBased segment index register bound found | @popNamed segment index symbol bound found =>
    simp only [size, Scope.generate, place_of_bound _ bound]
    cases segment <;> first | contradiction | rfl
  | label name =>
    simp only [size, Scope.generate, free]
    rfl
  | goto target | ifGoto target | «return» => rfl
  | function name locals =>
    simp only [size, Scope.generate, free]
    rfl
  | call bound =>
    simp only [size, Scope.generate, if_pos bound]
    rfl

end HackToolchain.Codegen
