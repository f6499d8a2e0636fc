import HackToolchain.Proofs.Assembly.Capacity
import HackToolchain.Proofs.Assembly.RoundTrip

/-! Variables and the top bit. Numbers and labels that are no addresses are refused, but variables
are counted on past the last address. The word of a variable that comes too late has its top bit
set, and the processor computes something instead of loading it. -/
namespace HackToolchain.Assembly

open Machine (Word Cpu Operation)

/-- A word that the processor takes for the address that it is. -/
def IsLoad (word : Word) : Prop :=
  word.toNat ≤ maxAddress ∧
    ∀ cpu : Cpu, cpu.execute (.decode word) = { cpu with a := word, pc := cpu.pc + 1 }

/-- A word that the processor takes for a computation. -/
def IsComputation (word : Word) : Prop :=
  maxAddress < word.toNat ∧ ∃ c, Operation.decode word = .compute c

theorem isLoad_iff {word : Word} : IsLoad word ↔ word.toNat ≤ maxAddress := by
  refine and_iff_left_of_imp fun small cpu => ?_
  rw [decode_load small]
  rfl

theorem isComputation_iff {word : Word} : IsComputation word ↔ maxAddress < word.toNat := by
  refine and_iff_left_of_imp fun large => ?_
  have set : word.msb = true := by
    simp only [maxAddress] at large
    rw [BitVec.msb_eq_decide, decide_eq_true_iff]
    omega
  exact ⟨.decode word, by rw [Operation.decode, if_pos set]⟩

/-- A variable that comes after as many others as there are addresses for. -/
def Late (program : List Instruction) (symbol : String) : Prop :=
  symbol ∈ variableUses program ∧ variableCapacity ≤ variablesBefore program symbol

section Words

variable {source : List Char} {program : List Instruction} (parsed : parse source = .ok program)
  (assembled : (assemble source).failure? = none)

include parsed assembled

theorem exists_address_word {index : Nat} {symbol : String}
    (written : (executable program)[index]? = some (.address symbol)) :
    ∃ word, (assemble source).done[index]? = some word ∧
      word.toNat = addressOf program symbol := by
  obtain ⟨_, _, _, emitted⟩ := exists_layout parsed assembled
  exact exists_related_getElem? emitted written

theorem maxAddress_lt_iff_late {symbol : String} (member : .address symbol ∈ program) :
    maxAddress < addressOf program symbol ↔ Late program symbol := by
  obtain ⟨layout, laid, numbers, _⟩ := exists_layout parsed assembled
  rw [← Nat.not_le, addressOf_le_iff laid numbers member, Late, Classical.not_imp, Nat.not_lt]

/-- Every address instruction of a program that assembles has its word, which is the address that
its symbol stands for. The processor loads it, unless the symbol is a variable for which there is no
address left; then it computes. So all of them are loaded exactly if there are not more variables
than addresses for them. -/
theorem address_words :
    (∀ (index : Nat) (symbol : String), (executable program)[index]? = some (.address symbol) →
      ∃ word, (assemble source).done[index]? = some word ∧
        word.toNat = addressOf program symbol ∧
        (Late program symbol → IsComputation word) ∧ (¬Late program symbol → IsLoad word)) ∧
    ((∀ (index : Nat) (symbol : String) (word : Word),
        (executable program)[index]? = some (.address symbol) →
        (assemble source).done[index]? = some word → IsLoad word) ↔
      (variableUses program).eraseDups.length ≤ variableCapacity) := by
  constructor
  · intro index symbol written
    obtain ⟨word, found, value⟩ := exists_address_word parsed assembled written
    have member := mem_of_mem_executable (List.mem_of_getElem? written)
    have large := maxAddress_lt_iff_late parsed assembled member
    refine ⟨word, found, value, fun late => ?_, fun early => ?_⟩
    · exact isComputation_iff.mpr (value ▸ large.mpr late)
    · exact isLoad_iff.mpr (value ▸ Nat.le_of_not_lt (mt large.mp early))
  · obtain ⟨layout, laid, numbers, _⟩ := exists_layout parsed assembled
    rw [← loadable_iff laid numbers]
    constructor
    · intro loads symbol member
      have kept : .address symbol ∈ executable program := List.mem_filter.mpr ⟨member, rfl⟩
      obtain ⟨index, written⟩ := List.getElem?_of_mem kept
      obtain ⟨word, found, value⟩ := exists_address_word parsed assembled written
      exact value ▸ (loads index symbol word written found).1
    · intro loadable index symbol word written found
      obtain ⟨other, same, value⟩ := exists_address_word parsed assembled written
      obtain rfl := Option.some.inj (same.symm.trans found)
      have member := mem_of_mem_executable (List.mem_of_getElem? written)
      exact isLoad_iff.mpr (value ▸ loadable symbol member)

end Words

/-- A variable and a number are loaded. -/
theorem address_words_pair :
    (variableUses [.address "i", .address "7"]).eraseDups.length ≤ variableCapacity ∧
    ∀ (index : Nat) (symbol : String) (word : Word),
      (executable [.address "i", .address "7"])[index]? = some (.address symbol) →
      (assemble "@i\n@7".toList).done[index]? = some word → IsLoad word := by
  have parsed : parse "@i\n@7".toList = .ok [.address "i", .address "7"] := by decide +kernel
  have few : (variableUses [.address "i", .address "7"]).eraseDups.length ≤ variableCapacity := by
    decide +kernel
  exact ⟨few, (address_words parsed (by decide +kernel)).2.mpr few⟩

/-- A program that loads one symbol after the other. -/
def loads (symbols : List String) : List Instruction :=
  symbols.map .address

/-- The text of such a program. -/
def loadsText (symbols : List String) : List Char :=
  symbols.flatMap fun symbol => '@' :: (symbol.toList ++ ['\n'])

/-- Symbols that can only be variables, each of them once. -/
structure AllVariables (symbols : List String) : Prop where
  legal : ∀ symbol ∈ symbols, IsSymbolText symbol
  symbolic : ∀ symbol ∈ symbols, isNumeric symbol = false
  new : ∀ symbol ∈ symbols, predefined.lookup symbol = none
  distinct : symbols.Nodup

namespace AllVariables

variable {symbols : List String} (free : AllVariables symbols)

theorem executable_loads (symbols : List String) : executable (loads symbols) = loads symbols := by
  induction symbols with
  | nil => rfl
  | cons symbol rest ih => exact congrArg (.address symbol :: ·) ih

theorem not_label (symbols : List String) (symbol : String) :
    .label symbol ∉ loads symbols := by
  simp [loads]

include free

theorem parse_loadsText : parse (loadsText symbols) = .ok (loads symbols) := by
  let items : List (Instruction × List Char) :=
    symbols.map fun symbol => (.address symbol, ['\n'])
  have feed : IsGap ['\n'] := .blank (by decide) .nil
  have legal : ∀ item ∈ items, item.1.Writable ∧ IsGap item.2 :=
    List.forall_mem_map.mpr fun symbol member => ⟨free.legal symbol member, feed⟩
  have apart : ∀ item ∈ items.dropLast, item.2 ≠ [] := by
    rw [← List.map_dropLast, List.forall_mem_map]
    simp
  have text : loadsText symbols = spreadChars items := by
    simp only [loadsText, spreadChars, items, List.flatMap_map, toList_text_address,
      List.cons_append]
  have read := parse_spreadChars .nil legal apart
  rw [List.nil_append, ← text, List.map_map] at read
  exact read

theorem fixedAddress?_loads {symbol : String} (member : symbol ∈ symbols) :
    fixedAddress? (loads symbols) symbol = none := by
  rw [fixedAddress?, free.new symbol member, if_neg (not_label symbols symbol), Option.or_none]

theorem variableUses_loads : variableUses (loads symbols) = symbols := by
  have named : ∀ symbol ∈ symbols,
      (Instruction.symbolic? ∘ Instruction.address) symbol = some symbol :=
    fun symbol member => if_neg (by simp [free.symbolic symbol member])
  have unfixed : ∀ symbol ∈ symbols, (fixedAddress? (loads symbols) symbol).isNone := by
    intro symbol member
    rw [free.fixedAddress?_loads member, Option.isNone_none]
  rw [variableUses, loads, List.filterMap_map, List.filterMap_congr named, List.filterMap_some,
    ← loads, List.filter_eq_self.mpr unfixed]

theorem addressOf_loads {index : Nat} (bound : index < symbols.length) :
    addressOf (loads symbols) symbols[index] = firstVariable + index := by
  have member := List.getElem_mem bound
  have place : variablesBefore (loads symbols) symbols[index] = index := by
    rw [variablesBefore, ← idxOf_eraseDups, free.variableUses_loads,
      eraseDups_of_nodup free.distinct, free.distinct.idxOf_getElem index bound]
  rw [addressOf, if_neg (by simp [free.symbolic _ member]), free.fixedAddress?_loads member, place,
    Option.getD_none]

theorem assembled_loads (room : symbols.length ≤ maxAddress + 1) :
    (assemble (loadsText symbols)).failure? = none := by
  rw [assemble_of_parse free.parse_loadsText]
  have definable : Definable (loads symbols) := by
    constructor
    · rintro before symbol after split
      exact absurd (split ▸ by simp) (not_label symbols symbol)
    · intro symbol member
      exact absurd member (not_label symbols symbol)
  have loadable : ∀ i ∈ loads symbols, i.outOfRange = false := by
    refine List.forall_mem_map.mpr fun symbol member => ?_
    rw [Instruction.outOfRange, outOfRange, free.symbolic symbol member, Bool.false_and]
  by_contra failed
  obtain ⟨e, failed⟩ := Option.ne_none_iff_exists'.mp failed
  obtain ⟨_, before, i, after, split, many⟩ :=
    (assembleInstructions_failure definable loadable e).mp failed
  have words : (executable before).length ≤ before.length := List.length_filter_le ..
  have length := congrArg List.length split
  rw [loads, List.length_map, List.length_append, List.length_cons] at length
  omega

end AllVariables

/-- As many variables as asked for, in the order of their numbers. -/
def numbered (count : Nat) : List String :=
  (List.range count).map fun number => "v" ++ number.repr

theorem allVariables_numbered (count : Nat) : AllVariables (numbered count) := by
  have spelled (number : Nat) : ("v" ++ number.repr).toList = 'v' :: number.repr.toList := by
    simp
  have unknown : ∀ entry ∈ predefined, 'v' ∉ entry.1.toList := by decide +kernel
  constructor
  · refine List.forall_mem_map.mpr fun number _ => ⟨by simp, ?_⟩
    rw [spelled, List.forall_mem_cons]
    refine ⟨by decide, fun c member => ?_⟩
    have digit := Text.isDigit_of_mem_repr member
    simp [isSymbolChar, Char.isAlphanum, digit]
  · refine List.forall_mem_map.mpr fun number _ => ?_
    rw [isNumeric, spelled]
    rfl
  · refine List.forall_mem_map.mpr fun number _ => ?_
    exact lookup_predefined unknown (by simp)
  · refine List.nodup_range.map fun number other same => ?_
    have digits := congrArg String.toList same
    rw [spelled, spelled] at digits
    exact Nat.repr_injective (String.toList_inj.mp (List.cons.inj digits).2)

/-- The program with one variable more than there are addresses for assembles, and what should load
the last variable computes. -/
theorem variable_computed :
    ∃ program word, parse (loadsText (numbered 32753)) = .ok program ∧
      (assemble (loadsText (numbered 32753))).failure? = none ∧
      (executable program)[32752]? = some (.address "v32752") ∧
      (assemble (loadsText (numbered 32753))).done[32752]? = some word ∧
      word.toNat = 32768 ∧ IsComputation word := by
  have free := allVariables_numbered 32753
  have size : (numbered 32753).length = 32753 := by
    rw [numbered, List.length_map, List.length_range]
  have room : (numbered 32753).length ≤ maxAddress + 1 := by
    rw [size]
    decide
  have bound : 32752 < (numbered 32753).length := by omega
  have last : (numbered 32753)[32752] = "v32752" := by
    simp only [numbered, List.getElem_map, List.getElem_range]
    decide +kernel
  have written : (executable (loads (numbered 32753)))[32752]? = some (.address "v32752") := by
    rw [AllVariables.executable_loads, loads, List.getElem?_map, List.getElem?_eq_getElem bound,
      last]
    rfl
  have parsed := free.parse_loadsText
  have assembled := free.assembled_loads room
  obtain ⟨word, found, value⟩ := exists_address_word parsed assembled written
  have address := free.addressOf_loads bound
  rw [last] at address
  rw [address] at value
  have large : maxAddress < word.toNat := by
    rw [value]
    decide
  exact ⟨_, word, parsed, assembled, written, found, value, isComputation_iff.mpr large⟩

end HackToolchain.Assembly
