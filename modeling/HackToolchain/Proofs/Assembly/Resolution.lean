import HackToolchain.Assembly.Program
import HackToolchain.Proofs.Assembly.Reading

/-! Addresses said of the instruction list alone, without a table: a label stands for the number of
words before it and a variable for the number of distinct variables used before it. The two passes
of assembling give every symbol this address, wherever it is used and wherever it is defined. -/
namespace HackToolchain.Assembly

open Machine (Word)

/-- The instructions that become words. -/
def executable (instructions : List Instruction) : List Instruction :=
  instructions.filter (!·.isLabel)

/-- How many words come before a label. -/
def labelPosition (instructions : List Instruction) (symbol : String) : Nat :=
  (executable (instructions.takeWhile (· ≠ .label symbol))).length

/-- The address of a symbol that is not left to the variables. -/
def fixedAddress? (instructions : List Instruction) (symbol : String) : Option Nat :=
  (predefined.lookup symbol).or
    (if .label symbol ∈ instructions then some (labelPosition instructions symbol) else none)

/-- Every use of a variable, in order. -/
def variableUses (instructions : List Instruction) : List String :=
  (instructions.filterMap Instruction.symbolic?).filter fun symbol =>
    (fixedAddress? instructions symbol).isNone

/-- How many other variables are used before the first use of this one. -/
def variablesBefore (instructions : List Instruction) (symbol : String) : Nat :=
  ((variableUses instructions).takeWhile (· ≠ symbol)).eraseDups.length

/-- What a symbol stands for in an address instruction. -/
def addressOf (instructions : List Instruction) (symbol : String) : Nat :=
  if isNumeric symbol then Nat.ofDigitChars 10 symbol.toList 0
  else (fixedAddress? instructions symbol).getD
    (firstVariable + variablesBefore instructions symbol)

/-- A number that no word can load: too large, or with other characters after its first digit. -/
def outOfRange (symbol : String) : Bool :=
  isNumeric symbol &&
    !(symbol.toList.all Char.isDigit && Nat.ofDigitChars 10 symbol.toList 0 ≤ maxAddress)

/-- The word that an instruction is to become. -/
def Emits (instructions : List Instruction) : Instruction → Word → Prop
  | .address symbol, word => word.toNat = addressOf instructions symbol
  | .compute dest comp jump, word => word = (computation dest comp jump).encode
  | .label _, _ => False

/-- An address instruction with a number that no word can load. -/
def Instruction.outOfRange : Instruction → Bool
  | .address symbol => Assembly.outOfRange symbol
  | _ => false

theorem executable_append (before after : List Instruction) :
    executable (before ++ after) = executable before ++ executable after :=
  List.filter_append ..

theorem executable_cons (i : Instruction) (rest : List Instruction) :
    executable (i :: rest) = if i.isLabel then executable rest else i :: executable rest := by
  cases label : i.isLabel <;> simp [executable, label]

@[simp] theorem executable_nil : executable [] = [] :=
  rfl

@[simp] theorem executable_label (symbol : String) (rest : List Instruction) :
    executable (.label symbol :: rest) = executable rest :=
  rfl

@[simp] theorem executable_address (symbol : String) (rest : List Instruction) :
    executable (.address symbol :: rest) = .address symbol :: executable rest :=
  rfl

@[simp] theorem executable_compute (dest : Machine.Destination) (comp : Comp) (jump : Option Jump)
    (rest : List Instruction) :
    executable (.compute dest comp jump :: rest) = .compute dest comp jump :: executable rest :=
  rfl

theorem labelPosition_cons (i : Instruction) (rest : List Instruction) (symbol : String) :
    labelPosition (i :: rest) symbol =
      if i = .label symbol then 0 else (executable [i]).length + labelPosition rest symbol := by
  by_cases same : i = .label symbol
  · simp [labelPosition, same, executable]
  · simp only [labelPosition, List.takeWhile_cons, same, decide_not, decide_false, Bool.not_false,
      if_true, if_false, executable_cons]
    cases i.isLabel <;> simp [executable, Nat.add_comm]

theorem takeWhile_ne_append [DecidableEq α] {a : α} {before : List α} (fresh : a ∉ before)
    (rest : List α) :
    (before ++ rest).takeWhile (· ≠ a) = before ++ rest.takeWhile (· ≠ a) := by
  apply List.takeWhile_append_of_pos
  intro b member
  rw [decide_eq_true_eq]
  rintro rfl
  exact fresh member

/-- The position of a label that is defined once. -/
theorem labelPosition_append (before after : List Instruction) (symbol : String)
    (fresh : .label symbol ∉ before) :
    labelPosition (before ++ .label symbol :: after) symbol = (executable before).length := by
  rw [labelPosition, takeWhile_ne_append fresh]
  simp

theorem length_eraseDups_le (symbols : List String) :
    symbols.eraseDups.length ≤ symbols.length := by
  induction size : symbols.length using Nat.strongRecOn generalizing symbols with
  | ind n ih =>
    cases symbols with
    | nil => simp
    | cons symbol rest =>
      have shorter := List.length_filter_le (fun other => !other == symbol) rest
      simp only [List.length_cons] at size
      rw [List.eraseDups_cons, List.length_cons]
      have bound := ih _ (by omega) (rest.filter fun other => !other == symbol) rfl
      omega

theorem eraseDups_of_nodup [BEq α] [LawfulBEq α] {items : List α} (nodup : items.Nodup) :
    items.eraseDups = items := by
  induction items with
  | nil => rfl
  | cons item rest ih =>
    obtain ⟨fresh, others⟩ := List.nodup_cons.mp nodup
    have kept : rest.filter (fun other => !other == item) = rest := by
      rw [List.filter_eq_self]
      intro other member
      have different : other ≠ item := fun same => fresh (same ▸ member)
      simpa using different
    rw [List.eraseDups_cons, kept, ih others]

theorem nodup_eraseDups [BEq α] [LawfulBEq α] (items : List α) : items.eraseDups.Nodup := by
  induction size : items.length using Nat.strongRecOn generalizing items with
  | ind n ih =>
    cases items with
    | nil => exact List.nodup_nil
    | cons item rest =>
      have shorter := List.length_filter_le (fun other => !other == item) rest
      simp only [List.length_cons] at size
      rw [List.eraseDups_cons, List.nodup_cons]
      exact ⟨by simp [List.mem_eraseDups], ih _ (by omega) _ rfl⟩

/-- Every item has its first use below a bound exactly if no more items than that are used. -/
theorem idxOf_eraseDups_lt_iff [BEq α] [LawfulBEq α] {items : List α} {bound : Nat} :
    (∀ item ∈ items, items.eraseDups.idxOf item < bound) ↔ items.eraseDups.length ≤ bound := by
  constructor
  · intro low
    by_contra many
    have beyond : bound < items.eraseDups.length := Nat.lt_of_not_le many
    have member := List.mem_eraseDups.mp (List.getElem_mem beyond)
    have place := (nodup_eraseDups items).idxOf_getElem bound beyond
    exact absurd (low _ member) (by omega)
  · intro few item used
    exact Nat.lt_of_lt_of_le (List.idxOf_lt_length_iff.mpr (List.mem_eraseDups.mpr used)) few

/-- The first uses of an item's predecessors are counted by its own place among first uses. -/
theorem idxOf_eraseDups [DecidableEq α] [BEq α] [LawfulBEq α] (items : List α) (a : α) :
    items.eraseDups.idxOf a = (items.takeWhile (· ≠ a)).eraseDups.length := by
  by_cases member : a ∈ items
  · obtain ⟨before, after, rfl, fresh⟩ := List.eq_append_cons_of_mem member
    have new : before.contains a = false := by simpa using fresh
    have absent : a ∉ before.eraseDups := mt List.mem_eraseDups.mp fresh
    have counted : (before ++ a :: after).takeWhile (· ≠ a) = before := by
      rw [takeWhile_ne_append fresh]
      simp
    rw [counted, List.eraseDups_append, List.cons_removeAll, if_pos new, List.eraseDups_cons,
      List.idxOf_append_of_notMem absent, List.idxOf_cons_self, Nat.add_zero]
  · have absent : a ∉ items.eraseDups := mt List.mem_eraseDups.mp member
    have counted := takeWhile_ne_append member []
    rw [List.append_nil, List.takeWhile_nil, List.append_nil] at counted
    rw [counted, List.idxOf_eq_length absent]

/-- A variable shares its place in the order of first uses with no other symbol. -/
theorem variablesBefore_inj {instructions : List Instruction} {symbol other : String}
    (used : symbol ∈ variableUses instructions)
    (same : variablesBefore instructions symbol = variablesBefore instructions other) :
    symbol = other := by
  rw [variablesBefore, variablesBefore, ← idxOf_eraseDups, ← idxOf_eraseDups] at same
  exact (List.idxOf_inj (List.mem_eraseDups.mpr used)).mp same

/-- Everything that one instruction can do to a layout. -/
theorem Layout.add_eq_ok {layout next : Layout} {i : Instruction}
    (added : layout.add i = .ok next) :
    layout.position ≤ maxAddress ∧
      ((∃ symbol, i = .label symbol ∧ layout.symbols[symbol]? = none ∧
          next = ⟨layout.symbols.insert symbol layout.position, layout.position⟩) ∨
        i.isLabel = false ∧ next = ⟨layout.symbols, layout.position + 1⟩) := by
  unfold add at added
  split at added
  · contradiction
  rename_i room
  refine ⟨Nat.le_of_not_lt room, ?_⟩
  cases i with
  | label symbol =>
    simp only at added
    split at added
    · contradiction
    · rename_i free
      rw [Std.TreeMap.contains_eq_isSome_getElem?, Bool.not_eq_true, Option.isSome_eq_false_iff,
        Option.isNone_iff_eq_none] at free
      exact .inl ⟨symbol, rfl, free, (Except.ok.inj added).symm⟩
  | address symbol => exact .inr ⟨rfl, (Except.ok.inj added).symm⟩
  | compute dest comp jump => exact .inr ⟨rfl, (Except.ok.inj added).symm⟩

theorem Layout.add_eq_error {layout : Layout} {i : Instruction} {e : Error}
    (failed : layout.add i = .error e) :
    e = .programTooLarge ∨ ∃ symbol, e = .duplicateLabel symbol := by
  unfold add at failed
  split at failed
  · exact .inl (Except.error.inj failed).symm
  cases i with
  | label symbol =>
    simp only at failed
    split at failed
    · exact .inr ⟨symbol, (Except.error.inj failed).symm⟩
    · contradiction
  | address symbol => contradiction
  | compute dest comp jump => contradiction

/-- What a successful first pass over `rest` says about the labels of `rest`. -/
structure Layout.Covers (start : Layout) (rest : List Instruction) (final : Layout) : Prop where
  position : final.position = start.position + (executable rest).length
  bound : start.position ≤ maxAddress + 1 → final.position ≤ maxAddress + 1
  fresh : ∀ symbol, .label symbol ∈ rest → start.symbols[symbol]? = none
  unique : ∀ before symbol after, rest = before ++ .label symbol :: after → .label symbol ∉ before
  loadable : ∀ symbol, .label symbol ∈ rest →
    start.position + labelPosition rest symbol ≤ maxAddress
  symbols : ∀ symbol, final.symbols[symbol]? = start.symbols[symbol]?.or
    (if .label symbol ∈ rest then some (start.position + labelPosition rest symbol) else none)

theorem Layout.covers_nil (start : Layout) : Covers start [] start where
  position := rfl
  bound := id
  fresh := by simp
  unique := by simp
  loadable := by simp
  symbols := by simp

theorem Layout.covers_label {start final : Layout} {symbol : String} {rest : List Instruction}
    (room : start.position ≤ maxAddress) (free : start.symbols[symbol]? = none)
    (later : Covers ⟨start.symbols.insert symbol start.position, start.position⟩ rest final) :
    Covers start (.label symbol :: rest) final := by
  have found (other : String) : (start.symbols.insert symbol start.position)[other]? =
      if symbol = other then some start.position else start.symbols[other]? := by
    simp [Std.TreeMap.getElem?_insert]
  have absent : .label symbol ∉ rest := fun member => by
    have := later.fresh symbol member
    simp at this
  refine ⟨later.position, later.bound, ?_, ?_, ?_, ?_⟩
  · intro other member
    rcases List.mem_cons.mp member with same | member
    · exact Instruction.label.inj same ▸ free
    · have fresh := later.fresh other member
      rw [found] at fresh
      split at fresh
      · contradiction
      · exact fresh
  · intro before other after split
    cases before with
    | nil => simp
    | cons first before =>
      obtain ⟨rfl, tail⟩ := List.cons.inj split
      intro member
      rcases List.mem_cons.mp member with same | member
      · refine absent ?_
        rw [← same, tail]
        simp
      · exact later.unique before other after tail member
  · intro other member
    rw [labelPosition_cons]
    split
    · exact room
    · rename_i different
      have := later.loadable other ((List.mem_cons.mp member).resolve_left (Ne.symm different))
      simpa using this
  · intro other
    rw [later.symbols, found, labelPosition_cons]
    by_cases same : symbol = other
    · subst other
      simp [free]
    · simp [same, Ne.symm same]

theorem Layout.covers_word {start final : Layout} {i : Instruction} {rest : List Instruction}
    (room : start.position ≤ maxAddress) (word : i.isLabel = false)
    (later : Covers ⟨start.symbols, start.position + 1⟩ rest final) :
    Covers start (i :: rest) final := by
  have different (symbol : String) : i ≠ .label symbol := by
    rintro rfl
    contradiction
  have one : executable [i] = [i] := by simp [executable, word]
  have shifted (symbol : String) : start.position + labelPosition (i :: rest) symbol =
      start.position + 1 + labelPosition rest symbol := by
    rw [labelPosition_cons, if_neg (different symbol), one, List.length_singleton]
    omega
  have member (symbol : String) (tail : List Instruction) :
      .label symbol ∈ i :: tail ↔ .label symbol ∈ tail := by
    simp [Ne.symm (different symbol)]
  refine ⟨?_, fun _ => later.bound (Nat.succ_le_succ room), ?_, ?_, ?_, ?_⟩
  · rw [later.position, executable_cons, word]
    simp
    omega
  · exact fun symbol labelled => later.fresh symbol ((member symbol rest).mp labelled)
  · intro before symbol after split
    cases before with
    | nil => simp
    | cons first before =>
      obtain ⟨rfl, tail⟩ := List.cons.inj split
      rw [member]
      exact later.unique before symbol after tail
  · intro symbol labelled
    rw [shifted]
    exact later.loadable symbol ((member symbol rest).mp labelled)
  · intro symbol
    rw [later.symbols, shifted]
    simp only [member]

theorem Layout.foldlM_covers {start final : Layout} {rest : List Instruction}
    (laid : rest.foldlM add start = .ok final) : Covers start rest final := by
  induction rest generalizing start with
  | nil => exact Except.ok.inj laid ▸ covers_nil start
  | cons i rest ih =>
    rw [List.foldlM_cons] at laid
    cases added : start.add i with
    | error e => simp [added, bind, Except.bind] at laid
    | ok next =>
      rw [added] at laid
      have later := ih laid
      obtain ⟨room, ⟨symbol, rfl, free, rfl⟩ | ⟨word, rfl⟩⟩ := add_eq_ok added
      · exact covers_label room free later
      · exact covers_word room word later

theorem Layout.foldlM_error {start : Layout} {rest : List Instruction} {e : Error}
    (failed : rest.foldlM add start = .error e) :
    e = .programTooLarge ∨ ∃ symbol, e = .duplicateLabel symbol := by
  induction rest generalizing start with
  | nil => contradiction
  | cons i rest ih =>
    rw [List.foldlM_cons] at failed
    cases added : start.add i with
    | error fault =>
      rw [added] at failed
      exact Except.error.inj failed ▸ add_eq_error added
    | ok next =>
      rw [added] at failed
      exact ih failed

theorem getElem?_foldl_insert {entries : List (String × Nat)} {table : SymbolTable}
    (distinct : (entries.map Prod.fst).Nodup) (symbol : String) :
    (entries.foldl (fun table (symbol, address) => table.insert symbol address) table)[symbol]? =
      (entries.lookup symbol).or table[symbol]? := by
  induction entries generalizing table with
  | nil => simp
  | cons entry rest ih =>
    obtain ⟨name, address⟩ := entry
    obtain ⟨absent, distinct⟩ := List.nodup_cons.mp distinct
    rw [List.foldl_cons, ih distinct, Std.TreeMap.getElem?_insert, List.lookup_cons]
    by_cases same : symbol = name
    · subst symbol
      have none : rest.lookup name = none :=
        List.lookup_eq_none_iff.mpr fun entry member => bne_iff_ne.mpr fun equal =>
          absent (List.mem_map.mpr ⟨entry, member, equal.symm⟩)
      simp [none]
    · simp [beq_eq_false_iff_ne.mpr same, Ne.symm same]

theorem predefined_nodup : (predefined.map Prod.fst).Nodup := by
  decide +kernel

theorem initial_getElem? (symbol : String) :
    SymbolTable.initial[symbol]? = predefined.lookup symbol := by
  rw [SymbolTable.initial, getElem?_foldl_insert predefined_nodup]
  simp

/-- How many distinct symbols outside the table are used before this one. -/
def newBefore (table : SymbolTable) (symbols : List String) (symbol : String) : Nat :=
  ((symbols.filter fun other => table[other]?.isNone).takeWhile (· ≠ symbol)).eraseDups.length

theorem newBefore_cons_known {table : SymbolTable} {first : String}
    (known : table[first]?.isSome) (rest : List String) (symbol : String) :
    newBefore table (first :: rest) symbol = newBefore table rest symbol := by
  have known : table[first]?.isNone = false := by simpa using known
  simp [newBefore, known]

theorem newBefore_cons_new {table : SymbolTable} {first symbol : String}
    (new : table[first]? = none) (different : first ≠ symbol) (address : Nat) (rest : List String) :
    newBefore table (first :: rest) symbol =
      newBefore (table.insert first address) rest symbol + 1 := by
  have inserted : (fun other => (table.insert first address)[other]?.isNone) =
      fun other => !other == first && table[other]?.isNone := by
    funext other
    by_cases same : other = first
    · subst other
      simp
    · simp [Std.TreeMap.getElem?_insert, same, Ne.symm same]
  have cut : (fun other => !(!other == first) || decide (other ≠ symbol)) =
      fun other => decide (other ≠ symbol) := by
    funext other
    by_cases same : other = first
    · subst other
      simp [different]
    · simp [same]
  rw [newBefore, newBefore, inserted, ← List.filter_filter,
    List.takeWhile_filter (l := rest.filter _),
    cut, List.filter_cons, if_pos (by simp [new]), List.takeWhile_cons,
    if_pos (by simp [different]),
    List.eraseDups_cons, List.length_cons]

theorem foldl_variables (symbols : List String) (table : SymbolTable) (next : Nat)
    (symbol : String) :
    (symbols.foldl (fun (state : SymbolTable × Nat) symbol =>
      if state.1.contains symbol then state else (state.1.insert symbol state.2, state.2 + 1))
      (table, next)).1[symbol]? =
    table[symbol]?.or
      (if symbol ∈ symbols then some (next + newBefore table symbols symbol) else none) := by
  induction symbols generalizing table next with
  | nil => simp
  | cons first rest ih =>
    rw [List.foldl_cons]
    cases known : table[first]? with
    | some address =>
      have contained : table.contains first := by
        simp [Std.TreeMap.contains_eq_isSome_getElem?, known]
      rw [if_pos contained, ih, newBefore_cons_known (by simp [known])]
      by_cases same : symbol = first
      · subst symbol
        simp [known]
      · simp [same]
    | none =>
      have missing : ¬table.contains first := by
        simp [Std.TreeMap.contains_eq_isSome_getElem?, known]
      rw [if_neg missing, ih, Std.TreeMap.getElem?_insert]
      by_cases same : first = symbol
      · subst symbol
        simp [known, newBefore]
      · rw [newBefore_cons_new known same next]
        simp [same, Ne.symm same, Nat.add_assoc, Nat.add_comm 1]

/-- The symbols of a program whose labels have been laid out, with its variables. -/
def Layout.table (layout : Layout) (instructions : List Instruction) : SymbolTable :=
  layout.symbols.addVariables (instructions.filterMap Instruction.symbolic?)

/-- Labels add nothing to what only words give something to. -/
theorem filterMap_executable {f : Instruction → Option α}
    (none : ∀ symbol, f (.label symbol) = none) (instructions : List Instruction) :
    (executable instructions).filterMap f = instructions.filterMap f := by
  induction instructions with
  | nil => rfl
  | cons i rest ih => cases i <;> simp [List.filterMap_cons, ih, none]

theorem variablesBefore_le_symbolic (instructions : List Instruction) (symbol : String) :
    variablesBefore instructions symbol ≤
      (instructions.filterMap Instruction.symbolic?).length :=
  calc variablesBefore instructions symbol
    _ ≤ ((variableUses instructions).takeWhile (· ≠ symbol)).length := length_eraseDups_le _
    _ ≤ (variableUses instructions).length := (List.takeWhile_prefix _).length_le
    _ ≤ (instructions.filterMap Instruction.symbolic?).length := List.length_filter_le ..

theorem predefined_le {symbol : String} {address : Nat}
    (found : predefined.lookup symbol = some address) : address ≤ maxAddress := by
  have small : ∀ entry ∈ predefined, entry.2 ≤ maxAddress := by decide +kernel
  obtain ⟨before, after, split, _⟩ := List.lookup_eq_some_iff.mp found
  exact small (symbol, address) (split ▸ by simp)

namespace Layout

variable {instructions : List Instruction} {layout : Layout}

theorem covers (laid : ofInstructions instructions = .ok layout) :
    Covers ⟨SymbolTable.initial, 0⟩ instructions layout :=
  foldlM_covers laid

theorem length_executable_le (laid : ofInstructions instructions = .ok layout) :
    (executable instructions).length ≤ maxAddress + 1 := by
  have covered := covers laid
  have bound := covered.bound (by simp)
  have position := covered.position
  simp only [Nat.zero_add] at position
  omega

theorem symbols_getElem? (laid : ofInstructions instructions = .ok layout) (symbol : String) :
    layout.symbols[symbol]? = fixedAddress? instructions symbol := by
  rw [(covers laid).symbols, initial_getElem?, fixedAddress?]
  simp only [Nat.zero_add]

theorem fixedAddress?_le (laid : ofInstructions instructions = .ok layout) {symbol : String}
    {address : Nat} (fixed : fixedAddress? instructions symbol = some address) :
    address ≤ maxAddress := by
  unfold fixedAddress? at fixed
  cases named : predefined.lookup symbol with
  | some value =>
    rw [named, Option.some_or, Option.some.injEq] at fixed
    exact fixed ▸ predefined_le named
  | none =>
    rw [named, Option.none_or] at fixed
    split at fixed
    · have bound := (covers laid).loadable symbol ‹_›
      simp only [Nat.zero_add] at bound
      exact Option.some.inj fixed ▸ bound
    · contradiction

theorem table_getElem? (laid : ofInstructions instructions = .ok layout) {symbol : String}
    (used : symbol ∈ instructions.filterMap Instruction.symbolic?) :
    (layout.table instructions)[symbol]? =
      some ((fixedAddress? instructions symbol).getD
        (firstVariable + variablesBefore instructions symbol)) := by
  have same : newBefore layout.symbols (instructions.filterMap Instruction.symbolic?) symbol =
      variablesBefore instructions symbol := by
    simp only [newBefore, variablesBefore, variableUses, symbols_getElem? laid]
  rw [table, SymbolTable.addVariables, foldl_variables, if_pos used, same, symbols_getElem? laid]
  cases fixedAddress? instructions symbol <;> rfl

theorem variablesBefore_le (laid : ofInstructions instructions = .ok layout) (symbol : String) :
    variablesBefore instructions symbol ≤ maxAddress + 1 :=
  calc variablesBefore instructions symbol
    _ ≤ (instructions.filterMap Instruction.symbolic?).length :=
      variablesBefore_le_symbolic instructions symbol
    _ ≤ (executable instructions).length := by
      rw [← filterMap_executable fun _ => rfl]
      exact List.length_filterMap_le ..
    _ ≤ maxAddress + 1 := length_executable_le laid

/-- No address is cut off when it is put into a word. -/
theorem addressOf_lt (laid : ofInstructions instructions = .ok layout) {symbol : String}
    (symbolic : ¬isNumeric symbol) : addressOf instructions symbol < 65536 := by
  have before := variablesBefore_le laid symbol
  rw [addressOf, if_neg symbolic]
  cases fixed : fixedAddress? instructions symbol with
  | some address =>
    have bound := fixedAddress?_le laid fixed
    simp only [Option.getD_some, maxAddress] at bound ⊢
    omega
  | none =>
    simp only [Option.getD_none, firstVariable, maxAddress] at before ⊢
    omega

theorem encode?_emits (laid : ofInstructions instructions = .ok layout) {i : Instruction}
    (member : i ∈ instructions) {word : Word}
    (encoded : encode? (layout.table instructions) i = some (.ok word)) :
    Emits instructions i word ∧ i.outOfRange = false := by
  cases i with
  | label symbol => contradiction
  | compute dest comp jump => exact ⟨(Except.ok.inj (Option.some.inj encoded)).symm, rfl⟩
  | address symbol =>
    have encoded := Option.some.inj encoded
    by_cases numeric : isNumeric symbol
    · rw [encodeAddress, if_pos numeric, Text.decimal?] at encoded
      split at encoded
      · rename_i value read
        split at read
        · rename_i range
          have exact := Option.some.inj read
          have bound := range.2.2
          simp only [maxAddress] at bound
          refine ⟨?_, ?_⟩
          · rw [← Except.ok.inj encoded, ← exact, Emits, addressOf, if_pos numeric,
              BitVec.toNat_ofNat]
            omega
          · simp only [Instruction.outOfRange, Assembly.outOfRange, range.2.1, maxAddress, bound]
            simp
        · contradiction
      · contradiction
    · rw [encodeAddress, if_neg numeric, Std.TreeMap.getD_eq_getD_getElem?,
        table_getElem? laid (List.mem_filterMap.mpr
          ⟨.address symbol, member, by simp [Instruction.symbolic?, numeric]⟩)] at encoded
      have bound := addressOf_lt laid numeric
      refine ⟨?_, by simp [Instruction.outOfRange, Assembly.outOfRange, numeric]⟩
      rw [addressOf, if_neg numeric] at bound
      rw [← Except.ok.inj encoded, Emits, addressOf, if_neg numeric, BitVec.toNat_ofNat]
      exact Nat.mod_eq_of_lt bound

end Layout

theorem encode?_eq_error {table : SymbolTable} {i : Instruction} {e : Error}
    (failed : encode? table i = some (.error e)) :
    ∃ symbol, i = .address symbol ∧ e = .addressOutOfRange symbol ∧ outOfRange symbol := by
  cases i with
  | label symbol => contradiction
  | compute dest comp jump => simp [encode?] at failed
  | address symbol =>
    have failed := Option.some.inj failed
    unfold encodeAddress at failed
    split at failed
    · rename_i numeric
      have digits : symbol.toList ≠ [] := by
        rintro none
        simp [isNumeric, none] at numeric
      split at failed
      · contradiction
      · rename_i unread
        refine ⟨symbol, rfl, (Except.error.inj failed).symm, ?_⟩
        rw [Text.decimal?, ite_eq_right_iff] at unread
        simp only [outOfRange, numeric, Bool.true_and, Bool.not_eq_true', Bool.and_eq_false_iff,
          decide_eq_false_iff_not]
        by_cases all : symbol.toList.all Char.isDigit
        · exact .inr fun bound => by simpa using unread ⟨digits, all, bound⟩
        · exact .inl (Bool.eq_false_iff.mpr all)
    · contradiction

theorem executable_results (table : SymbolTable) (instructions : List Instruction) :
    List.Forall₂ (fun i result => encode? table i = some result)
      (executable instructions) (instructions.filterMap (encode? table)) := by
  induction instructions with
  | nil => exact .nil
  | cons i rest ih =>
    cases i with
    | label symbol => exact ih
    | address symbol => exact .cons rfl ih
    | compute dest comp jump => exact .cons rfl ih

theorem mem_of_mem_executable {i : Instruction} {instructions : List Instruction}
    (member : i ∈ executable instructions) : i ∈ instructions :=
  (List.mem_filter.mp member).1

namespace Layout

variable {instructions : List Instruction} {layout : Layout}

theorem assembleInstructions_eq (laid : ofInstructions instructions = .ok layout) :
    assembleInstructions instructions =
      .ofResults (instructions.filterMap (encode? (layout.table instructions))) := by
  rw [assembleInstructions, laid]
  rfl

/-- Words that come out of the second pass are the right ones, and no literal before them is out of
range. -/
theorem emitted (laid : ofInstructions instructions = .ok layout) {part : List Instruction}
    {words : List Word} (within : ∀ i ∈ part, i ∈ executable instructions)
    (encoded : List.Forall₂
      (fun i word => encode? (layout.table instructions) i = some (.ok word)) part words) :
    (∀ i ∈ part, i.outOfRange = false) ∧ List.Forall₂ (Emits instructions) part words := by
  rw [← List.forall₂_and_left]
  apply ((List.forall₂_and_left _ _).mpr ⟨within, encoded⟩).imp
  rintro i word ⟨member, encoded⟩
  exact (encode?_emits laid (mem_of_mem_executable member) encoded).symm

theorem emits_all (laid : ofInstructions instructions = .ok layout)
    (succeeded : (assembleInstructions instructions).failure? = none) :
    (∀ i ∈ executable instructions, i.outOfRange = false) ∧
      List.Forall₂ (Emits instructions) (executable instructions)
        (assembleInstructions instructions).done := by
  have results := executable_results (layout.table instructions) instructions
  have split := Progress.ofResults_split
    (instructions.filterMap (encode? (layout.table instructions)))
  rw [← assembleInstructions_eq laid, succeeded] at split
  simp only at split
  rw [split, List.forall₂_map_right_iff] at results
  exact emitted laid (fun _ => id) results

theorem emits_before (laid : ofInstructions instructions = .ok layout) {e : Error}
    (failed : (assembleInstructions instructions).failure? = some e) :
    ∃ symbol before after, e = .addressOutOfRange symbol ∧
      executable instructions = before ++ .address symbol :: after ∧ outOfRange symbol ∧
      (∀ i ∈ before, i.outOfRange = false) ∧
      List.Forall₂ (Emits instructions) before (assembleInstructions instructions).done := by
  have results := executable_results (layout.table instructions) instructions
  have split := Progress.ofResults_split
    (instructions.filterMap (encode? (layout.table instructions)))
  rw [← assembleInstructions_eq laid, failed] at split
  obtain ⟨later, split⟩ := split
  rw [split] at results
  have first := List.forall₂_take_append _ _ _ results
  have rest := List.forall₂_drop_append _ _ _ results
  rw [List.forall₂_map_right_iff] at first
  obtain ⟨i, after, unencoded, _, cut⟩ := List.forall₂_cons_right_iff.mp rest
  obtain ⟨symbol, rfl, rfl, range⟩ := encode?_eq_error unencoded
  obtain ⟨inside, words⟩ := emitted laid (fun _ => List.mem_of_mem_take) first
  have whole := (List.take_append_drop _ (executable instructions)).symm.trans (congrArg _ cut)
  exact ⟨symbol, _, after, rfl, whole, range, inside, words⟩

end Layout

theorem assemble_of_parse {source : List Char} {instructions : List Instruction}
    (parsed : parse source = .ok instructions) :
    assemble source = assembleInstructions instructions := by
  rw [assemble, parsed]

theorem assembleInstructions_of_error {instructions : List Instruction} {e : Error}
    (unlaid : Layout.ofInstructions instructions = .error e) :
    assembleInstructions instructions = ⟨[], some e⟩ := by
  rw [assembleInstructions, unlaid]

/-- A program that assembles has been laid out, and every instruction of it has its word. -/
theorem exists_layout {source : List Char} {instructions : List Instruction}
    (parsed : parse source = .ok instructions) (assembled : (assemble source).failure? = none) :
    ∃ layout, Layout.ofInstructions instructions = .ok layout ∧
      (∀ i ∈ executable instructions, i.outOfRange = false) ∧
      List.Forall₂ (Emits instructions) (executable instructions) (assemble source).done := by
  rw [assemble_of_parse parsed] at assembled ⊢
  cases laid : Layout.ofInstructions instructions with
  | error e =>
    rw [assembleInstructions_of_error laid] at assembled
    contradiction
  | ok layout => exact ⟨layout, rfl, Layout.emits_all laid assembled⟩

/-- Words are those of the first instructions, whether or not the program assembles. -/
theorem exists_emitted {source : List Char} {instructions : List Instruction}
    (parsed : parse source = .ok instructions) :
    ∃ part, part <+: executable instructions ∧
      List.Forall₂ (Emits instructions) part (assemble source).done := by
  rw [assemble_of_parse parsed]
  cases laid : Layout.ofInstructions instructions with
  | error e =>
    rw [assembleInstructions_of_error laid]
    exact ⟨[], List.nil_prefix, .nil⟩
  | ok layout =>
    cases outcome : (assembleInstructions instructions).failure? with
    | none => exact ⟨_, List.prefix_rfl, (Layout.emits_all laid outcome).2⟩
    | some e =>
      obtain ⟨_, before, after, _, split, _, _, emits⟩ := Layout.emits_before laid outcome
      exact ⟨before, split ▸ List.prefix_append _ _, emits⟩

theorem emits_getElem? {source : List Char} {instructions : List Instruction} {index : Nat}
    {i : Instruction} {word : Word} (parsed : parse source = .ok instructions)
    (written : (executable instructions)[index]? = some i)
    (emitted : (assemble source).done[index]? = some word) : Emits instructions i word := by
  obtain ⟨part, first, emits⟩ := exists_emitted parsed
  have within : index < part.length :=
    emits.length_eq ▸ (List.getElem?_eq_some_iff.mp emitted).1
  obtain ⟨rest, whole⟩ := first
  rw [← whole, List.getElem?_append_left within] at written
  obtain ⟨other, found, holds⟩ := exists_related_getElem? emits written
  obtain rfl : other = word := Option.some.inj (found.symm.trans emitted)
  exact holds

/-- A program that assembles gives one word for each instruction that is no label, in order and at
the address that the instruction list determines. A program that does not gives no words at all,
except that a number out of range is only found when the words before it have been given. -/
theorem assemble_resolves (source : List Char) :
    match (assemble source).failure? with
    | none => ∃ instructions, parse source = .ok instructions ∧
        List.Forall₂ (Emits instructions) (executable instructions) (assemble source).done
    | some (.addressOutOfRange symbol) => ∃ instructions before after,
        parse source = .ok instructions ∧
        executable instructions = before ++ .address symbol :: after ∧ outOfRange symbol ∧
        (∀ i ∈ before, i.outOfRange = false) ∧
        List.Forall₂ (Emits instructions) before (assemble source).done
    | some _ => (assemble source).done = [] := by
  cases parsed : parse source with
  | error e =>
    obtain ⟨line, fault, rfl⟩ := parse_eq_error parsed
    simp only [assemble, parsed]
  | ok instructions =>
    rw [assemble_of_parse parsed]
    cases laid : Layout.ofInstructions instructions with
    | error e =>
      rw [assembleInstructions_of_error laid]
      obtain rfl | ⟨symbol, rfl⟩ := Layout.foldlM_error laid <;> rfl
    | ok layout =>
      cases outcome : (assembleInstructions instructions).failure? with
      | none => exact ⟨instructions, rfl, (Layout.emits_all laid outcome).2⟩
      | some e =>
        obtain ⟨symbol, before, after, rfl, split⟩ := Layout.emits_before laid outcome
        exact ⟨instructions, before, after, rfl, split⟩

end HackToolchain.Assembly
