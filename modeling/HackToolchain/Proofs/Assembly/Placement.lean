import HackToolchain.Proofs.Assembly.Interpreter

/-! Code that stands somewhere in a program. Its words are found from its position on, its labels
stand for their positions, and code without jumps runs from its first word past its last. -/
namespace HackToolchain.Assembly

open Machine (Word Cpu)

/-- `code` stands in `program` after `pc` words. -/
def At (program : List Instruction) (pc : Nat) (code : List Instruction) : Prop :=
  ∃ before after, program = before ++ code ++ after ∧ (executable before).length = pc

namespace At

variable {program first second : List Instruction} {i : Instruction} {pc : Nat}

theorem left (placed : At program pc (first ++ second)) : At program pc first := by
  obtain ⟨before, after, rfl, rfl⟩ := placed
  exact ⟨before, second ++ after, by simp, rfl⟩

theorem right (placed : At program pc (first ++ second)) :
    At program (pc + (executable first).length) second := by
  obtain ⟨before, after, rfl, rfl⟩ := placed
  exact ⟨before ++ first, after, by simp, by simp [executable_append]⟩

theorem fetch (placed : At program pc [i]) (word : i.isLabel = false) :
    (executable program)[pc]? = some i := by
  obtain ⟨before, after, rfl, rfl⟩ := placed
  have first : executable (i :: after) = i :: executable after := by simp [executable, word]
  simp [executable_append, first]

theorem mem (placed : At program pc first) (member : i ∈ first) : i ∈ program := by
  obtain ⟨before, after, rfl, _⟩ := placed
  exact List.mem_append_left _ (List.mem_append_right _ member)

theorem member (placed : At program pc [i]) : i ∈ program :=
  placed.mem (List.mem_singleton_self i)

/-- A label that was laid out stands for its position and is none of the predefined symbols. -/
theorem label {layout : Layout} (laid : Layout.ofInstructions program = .ok layout)
    {symbol : String} (placed : At program pc [.label symbol]) :
    predefined.lookup symbol = none ∧ fixedAddress? program symbol = some pc ∧ pc ≤ maxAddress := by
  have covered := Layout.covers laid
  have member := placed.member
  obtain ⟨before, after, split, rfl⟩ := placed
  rw [List.append_assoc, List.singleton_append] at split
  have free := covered.fresh symbol member
  rw [initial_getElem?] at free
  have bound := covered.loadable symbol member
  have position : labelPosition program symbol = (executable before).length := by
    rw [split]
    exact labelPosition_append before after symbol (covered.unique before symbol after split)
  rw [position, Nat.zero_add] at bound
  exact ⟨free, by rw [fixedAddress?, free, if_pos member, position, Option.none_or], bound⟩

theorem addressOf_label {layout : Layout} (laid : Layout.ofInstructions program = .ok layout)
    {symbol : String} (placed : At program pc [.label symbol])
    (symbolic : isNumeric symbol = false) : addressOf program symbol = pc := by
  obtain ⟨_, fixed, _⟩ := placed.label laid
  simp [addressOf, symbolic, fixed]

end At

theorem isNumeric_repr (n : Nat) : isNumeric n.repr := by
  obtain ⟨c, rest, digits⟩ := List.exists_cons_of_ne_nil (Nat.toDigits_ne_nil (n := n) (b := 10))
  have member : c ∈ n.repr.toList := by simp [Nat.toList_repr, digits]
  have digit := Text.isDigit_of_mem_repr member
  simp [isNumeric, Nat.toList_repr, digits, digit]

@[simp] theorem addressOf_repr (program : List Instruction) (n : Nat) :
    addressOf program n.repr = n := by
  rw [addressOf, if_pos (isNumeric_repr n), Nat.toList_repr,
    Nat.ofDigitChars_toDigits (by omega) (by omega)]

theorem isNumeric_predefined {symbol : String} {address : Nat}
    (found : predefined.lookup symbol = some address) : isNumeric symbol = false := by
  have symbols : ∀ entry ∈ predefined, isNumeric entry.1 = false := by decide +kernel
  obtain ⟨before, after, split, _⟩ := List.lookup_eq_some_iff.mp found
  exact symbols (symbol, address) (split ▸ by simp)

/-- A symbol with a character that no predefined one has is not predefined. -/
theorem lookup_predefined {symbol : String} {c : Char}
    (strange : ∀ entry ∈ predefined, c ∉ entry.1.toList) (member : c ∈ symbol.toList) :
    predefined.lookup symbol = none := by
  apply List.lookup_eq_none_iff.mpr
  intro entry known
  apply bne_iff_ne.mpr
  intro same
  exact strange entry known (same ▸ member)

theorem addressOf_predefined (program : List Instruction) {symbol : String} {address : Nat}
    (found : predefined.lookup symbol = some address) : addressOf program symbol = address := by
  simp [addressOf, isNumeric_predefined found, fixedAddress?, found]

theorem lookup_register : ∀ entry ∈ [("SP", 0), ("LCL", 1), ("ARG", 2), ("THIS", 3), ("THAT", 4),
    ("R13", 13), ("R14", 14)], predefined.lookup entry.1 = some entry.2 := by
  decide +kernel

section Registers

variable (program : List Instruction)

@[simp] theorem addressOf_SP : addressOf program "SP" = 0 :=
  addressOf_predefined program (lookup_register ("SP", 0) (by simp))

@[simp] theorem addressOf_LCL : addressOf program "LCL" = 1 :=
  addressOf_predefined program (lookup_register ("LCL", 1) (by simp))

@[simp] theorem addressOf_ARG : addressOf program "ARG" = 2 :=
  addressOf_predefined program (lookup_register ("ARG", 2) (by simp))

@[simp] theorem addressOf_THIS : addressOf program "THIS" = 3 :=
  addressOf_predefined program (lookup_register ("THIS", 3) (by simp))

@[simp] theorem addressOf_THAT : addressOf program "THAT" = 4 :=
  addressOf_predefined program (lookup_register ("THAT", 4) (by simp))

@[simp] theorem addressOf_R13 : addressOf program "R13" = 13 :=
  addressOf_predefined program (lookup_register ("R13", 13) (by simp))

@[simp] theorem addressOf_R14 : addressOf program "R14" = 14 :=
  addressOf_predefined program (lookup_register ("R14", 14) (by simp))

end Registers

theorem addressOf_R (program : List Instruction) {n : Nat} (bound : n < 16) :
    addressOf program ("R" ++ n.repr) = n := by
  have found : ∀ n < 16, predefined.lookup ("R" ++ n.repr) = some n := by decide +kernel
  exact addressOf_predefined program (found n bound)

/-- `count` steps of a program. -/
def Runs (program : List Instruction) (count : Nat) (cpu next : Cpu) : Prop :=
  interpret program count cpu = (count, next)

namespace Runs

variable {program : List Instruction} {cpu between next : Cpu}

theorem refl : Runs program 0 cpu cpu :=
  rfl

theorem head {i : Instruction} (fetched : (executable program)[cpu.pc]? = some i) {count : Nat}
    (rest : Runs program count (execute program cpu i) next) :
    Runs program (count + 1) cpu next := by
  rw [Runs, interpret, fetched]
  simp [show interpret program count (execute program cpu i) = (count, next) from rest]

theorem trans {first second : Nat} (before : Runs program first cpu between)
    (after : Runs program second between next) : Runs program (first + second) cpu next := by
  induction first generalizing cpu with
  | zero =>
    obtain rfl : cpu = between := (Prod.mk.inj before).2
    rwa [Nat.zero_add]
  | succ first ih =>
    rw [Runs, interpret] at before
    split at before
    · simp at before
    · rename_i i fetched
      obtain ⟨count, reached⟩ := Prod.mk.inj before
      have earlier : Runs program first (execute program cpu i) between :=
        Prod.ext (Nat.succ.inj count) reached
      rw [Nat.add_right_comm]
      exact head fetched (ih earlier)

end Runs

/-- Whether the next instruction follows in any case. -/
def Instruction.straight : Instruction → Bool
  | .compute _ _ (some _) => false
  | _ => true

theorem pc_execute {program : List Instruction} {i : Instruction} (straight : i.straight)
    (cpu : Cpu) : (execute program cpu i).pc = cpu.pc + (executable [i]).length := by
  cases i with
  | address symbol | label symbol => rfl
  | compute dest comp jump =>
    cases jump with
    | none => rfl
    | some jump => contradiction

/-- The state after code without jumps. -/
def executeAll (program : List Instruction) (code : List Instruction) (cpu : Cpu) : Cpu :=
  code.foldl (execute program) cpu

theorem executeAll_append (program first second : List Instruction) (cpu : Cpu) :
    executeAll program (first ++ second) cpu =
      executeAll program second (executeAll program first cpu) :=
  List.foldl_append

theorem runs_straight {program code : List Instruction} (cpu : Cpu)
    (placed : At program cpu.pc code) (straight : code.all Instruction.straight) :
    Runs program (executable code).length cpu (executeAll program code cpu) ∧
      (executeAll program code cpu).pc = cpu.pc + (executable code).length := by
  induction code generalizing cpu with
  | nil => exact ⟨.refl, rfl⟩
  | cons i rest ih =>
    obtain ⟨first, later⟩ := Bool.and_eq_true_iff.mp straight
    have here : At program cpu.pc ([i] ++ rest) := placed
    have next := here.right
    rw [← pc_execute first] at next
    obtain ⟨runs, pc⟩ := ih _ next later
    rw [pc_execute first] at pc
    have whole : (executable (i :: rest)).length =
        (executable [i]).length + (executable rest).length := by
      rw [← List.singleton_append, executable_append, List.length_append]
    rw [whole, ← Nat.add_assoc]
    refine ⟨?_, pc⟩
    cases label : i.isLabel with
    | true =>
      cases i with
      | label symbol => exact (Nat.zero_add _).symm ▸ runs
      | _ => contradiction
    | false =>
      have one : executable [i] = [i] := by simp [executable, label]
      rw [one, List.length_singleton, Nat.add_comm]
      exact .head (here.left.fetch label) runs

end HackToolchain.Assembly
