import HackToolchain.Proofs.Assembly.Resolution
import HackToolchain.Proofs.Assembly.RoundTrip
import HackToolchain.Proofs.Assembly.Scanner

/-! Both passes with their counters checked. The first pass refuses to count further than the
positions that have an address, so there are no more variables than that either, since each has an
instruction that uses it. Together with the scanner this makes an assembler that looks before each
of its steps, and never has to stop for what it sees. -/
namespace HackToolchain.Assembly

open Machine (Word)

/-- How many positions can be addressed. -/
def memorySize : Nat := maxAddress + 1

/-- Sixteen bits are enough for every counter that stays within the bounds below. -/
example : firstVariable + memorySize < 2 ^ 16 := by decide

/-- One step of the first pass. What is stored for a label has to be an address, and the count of
words may not become more than there are positions. -/
def Layout.addWithin (layout : Layout) (i : Instruction) : Except Stop Layout :=
  if maxAddress < layout.position then .error (.error .programTooLarge)
  else match i with
    | .label symbol => do
      require (layout.position ≤ maxAddress)
      if layout.symbols.contains symbol then .error (.error (.duplicateLabel symbol))
      else return { layout with symbols := layout.symbols.insert symbol layout.position }
    | _ => do
      require (layout.position + 1 ≤ memorySize)
      return { layout with position := layout.position + 1 }

/-- The addresses given so far, and the next variable. -/
structure Allocation where
  symbols : SymbolTable
  next : Nat

namespace Allocation

/-- Gives a symbol the next variable if it has no address yet. -/
def allot (a : Allocation) (symbol : String) : Allocation :=
  if a.symbols.contains symbol then a else ⟨a.symbols.insert symbol a.next, a.next + 1⟩

/-- The address of a symbol. The first character tells whether it is a number, so there has to be
one; a new variable may not be further from the first one than there are positions. -/
def address (a : Allocation) (symbol : String) : Except Stop (Nat × Allocation) := do
  let first ← charAt symbol.toList 0
  if first.isDigit then
    match Text.decimal? maxAddress symbol.toList with
    | some value => return (value, a)
    | none => .error (.error (.addressOutOfRange symbol))
  else
    match a.symbols[symbol]? with
    | some value => return (value, a)
    | none =>
      require (a.next + 1 ≤ firstVariable + memorySize)
      return (a.next, ⟨a.symbols.insert symbol a.next, a.next + 1⟩)

/-- The second pass, up to the first instruction that stops it. -/
def emit (a : Allocation) : List Instruction → Progress Stop Word
  | [] => ⟨[], none⟩
  | .label _ :: rest => a.emit rest
  | .compute dest comp jump :: rest =>
    let later := a.emit rest
    ⟨(computation dest comp jump).encode :: later.done, later.failure?⟩
  | .address symbol :: rest =>
    match a.address symbol with
    | .error stop => ⟨[], some stop⟩
    | .ok (value, a) =>
      let later := a.emit rest
      ⟨BitVec.ofNat 16 value :: later.done, later.failure?⟩

end Allocation

/-- Assembling with everything checked on the way. -/
def assembleWithin (source : List Char) : Progress Stop Word :=
  match scanText source with
  | .error stop => ⟨[], some stop⟩
  | .ok instructions =>
    match instructions.foldlM Layout.addWithin ⟨SymbolTable.initial, 0⟩ with
    | .error stop => ⟨[], some stop⟩
    | .ok layout => Allocation.emit ⟨layout.symbols, firstVariable⟩ (executable instructions)

theorem Layout.addWithin_eq (layout : Layout) (i : Instruction) :
    layout.addWithin i = (layout.add i).mapError .error := by
  unfold addWithin add
  split
  · rfl
  · rename_i room
    have position : layout.position ≤ maxAddress := Nat.le_of_not_lt room
    cases i with
    | label symbol =>
      simp only [require_ok position, ok_bind]
      split <;> rfl
    | address symbol | compute dest comp jump =>
      have next : layout.position + 1 ≤ memorySize := Nat.succ_le_succ position
      simp only [require_ok next, ok_bind]
      rfl

theorem foldlM_mapError (step : σ → α → Except ε σ) (g : ε → ε') (items : List α) (start : σ) :
    items.foldlM (fun state item => (step state item).mapError g) start =
      (items.foldlM step start).mapError g := by
  induction items generalizing start with
  | nil => rfl
  | cons item rest ih =>
    rw [List.foldlM_cons, List.foldlM_cons]
    cases step start item with
    | error e => rfl
    | ok next => exact ih next

theorem Layout.foldlM_addWithin (instructions : List Instruction) :
    instructions.foldlM addWithin ⟨SymbolTable.initial, 0⟩ =
      (ofInstructions instructions).mapError .error := by
  have step : addWithin = fun layout i => (layout.add i).mapError .error :=
    funext fun layout => funext fun i => addWithin_eq layout i
  rw [step, foldlM_mapError, ofInstructions]

namespace Allocation

theorem foldl_allot (symbols : List String) (table : SymbolTable) :
    (symbols.foldl allot ⟨table, firstVariable⟩).symbols = table.addVariables symbols := by
  rw [SymbolTable.addVariables]
  generalize firstVariable = next
  induction symbols generalizing table next with
  | nil => rfl
  | cons symbol rest ih =>
    rw [List.foldl_cons, List.foldl_cons, allot]
    split <;> exact ih ..

theorem allot_next_le (a : Allocation) (symbol : String) : (a.allot symbol).next ≤ a.next + 1 := by
  unfold allot
  split
  · exact Nat.le_succ _
  · exact Nat.le_refl _

theorem allot_getElem? (a : Allocation) (symbol other : String) :
    (a.allot symbol).symbols[other]? =
      a.symbols[other]?.or (if other = symbol then some a.next else none) := by
  rw [allot, Std.TreeMap.contains_eq_isSome_getElem?]
  by_cases same : other = symbol
  · subst same
    cases known : a.symbols[other]? <;> simp [known]
  · rw [if_neg same, Option.or_none]
    split
    · rfl
    · rw [Std.TreeMap.getElem?_insert, if_neg (by simpa using Ne.symm same)]

/-- An address once given is kept. -/
theorem foldl_allot_getElem? {a : Allocation} {symbol : String} {value : Nat}
    (given : a.symbols[symbol]? = some value) (symbols : List String) :
    (symbols.foldl allot a).symbols[symbol]? = some value := by
  induction symbols generalizing a with
  | nil => exact given
  | cons other rest ih =>
    apply ih
    rw [allot_getElem?, given, Option.some_or]

variable {a : Allocation} {symbol : String}

theorem charAt_zero (text : symbol.toList ≠ []) :
    ∃ first, charAt symbol.toList 0 = .ok first ∧ isNumeric symbol = first.isDigit := by
  obtain ⟨first, rest, spelled⟩ := List.exists_cons_of_ne_nil text
  refine ⟨first, ?_, ?_⟩
  · rw [spelled]
    rfl
  · rw [isNumeric, spelled]
    rfl

theorem address_numeric (text : symbol.toList ≠ []) (numeric : isNumeric symbol) :
    a.address symbol = match Text.decimal? maxAddress symbol.toList with
      | some value => .ok (value, a)
      | none => .error (.error (.addressOutOfRange symbol)) := by
  obtain ⟨first, found, digit⟩ := charAt_zero text
  rw [address, found, ok_bind, if_pos (digit ▸ numeric)]
  rfl

theorem address_symbolic (text : symbol.toList ≠ []) (symbolic : isNumeric symbol = false)
    (room : a.next + 1 ≤ firstVariable + memorySize) :
    a.address symbol = .ok (a.symbols[symbol]?.getD a.next, a.allot symbol) := by
  obtain ⟨first, found, digit⟩ := charAt_zero text
  rw [address, found, ok_bind, if_neg (by simp [← digit, symbolic]), allot,
    Std.TreeMap.contains_eq_isSome_getElem?]
  cases a.symbols[symbol]? with
  | some value => rfl
  | none =>
    rw [require_ok room]
    rfl

/-- Giving out variables on the way gives the words of the table with all its variables, as long as
there is room for as many variables as there are instructions left. -/
theorem emit_eq {rest : List Instruction} (writable : ∀ i ∈ rest, i.Writable)
    (room : a.next + rest.length ≤ firstVariable + memorySize) {table : SymbolTable}
    (final : table = ((rest.filterMap Instruction.symbolic?).foldl allot a).symbols) :
    a.emit rest =
      ⟨(Progress.ofResults (rest.filterMap (encode? table))).done,
        (Progress.ofResults (rest.filterMap (encode? table))).failure?.map .error⟩ := by
  induction rest generalizing a with
  | nil => rfl
  | cons i rest ih =>
    obtain ⟨first, later⟩ := List.forall_mem_cons.mp writable
    rw [List.length_cons] at room
    cases i with
    | label symbol => exact ih later (by omega) final
    | compute dest comp jump =>
      rw [emit, ih later (by omega) final]
      rfl
    | address symbol =>
      have text : symbol.toList ≠ [] := first.1
      cases numeric : isNumeric symbol with
      | true =>
        have unnamed : (Instruction.address symbol).symbolic? = none := if_pos numeric
        rw [List.filterMap_cons_none unnamed] at final
        rw [emit, address_numeric text numeric, List.filterMap_cons, encode?, encodeAddress,
          if_pos numeric]
        cases Text.decimal? maxAddress symbol.toList with
        | none => rfl
        | some value =>
          simp only [ih later (by omega) final]
          rfl
      | false =>
        have named : (Instruction.address symbol).symbolic? = some symbol :=
          if_neg (by simp [numeric])
        rw [List.filterMap_cons_some named, List.foldl_cons] at final
        have given : table[symbol]? = some (a.symbols[symbol]?.getD a.next) := by
          rw [final]
          apply foldl_allot_getElem?
          rw [allot_getElem?, if_pos rfl]
          cases a.symbols[symbol]? <;> rfl
        have bound := allot_next_le a symbol
        rw [emit, address_symbolic text numeric (by omega), List.filterMap_cons, encode?,
          encodeAddress, if_neg (by simp [numeric]), Std.TreeMap.getD_eq_getD_getElem?, given]
        simp only [ih later (by omega) final]
        rfl

end Allocation

/-- Whatever it is given, the assembler neither counts nor looks too far: no position of the text,
no position of an instruction, no address of a label or a variable and no first character of a
symbol is ever out of its bounds, and with all these checks on the way the words and the error are
those that come without them. -/
theorem assemble_within (source : List Char) :
    assembleWithin source = ⟨(assemble source).done, (assemble source).failure?.map .error⟩ ∧
      (assembleWithin source).failure? ≠ some .bounds := by
  have same : assembleWithin source =
      ⟨(assemble source).done, (assemble source).failure?.map .error⟩ := by
    rw [assembleWithin, scanText_eq, assemble]
    cases parsed : parse source with
    | error e => rfl
    | ok instructions =>
      simp only [Except.mapError]
      rw [Layout.foldlM_addWithin]
      cases laid : Layout.ofInstructions instructions with
      | error e =>
        rw [assembleInstructions_of_error laid]
        rfl
      | ok layout =>
        have program : ∀ i ∈ executable instructions, i.Writable :=
          fun i member => writable_of_parse parsed i (mem_of_mem_executable member)
        have room : firstVariable + (executable instructions).length ≤ firstVariable + memorySize :=
          Nat.add_le_add_left (Layout.length_executable_le laid) _
        have final : layout.table instructions =
            (((executable instructions).filterMap Instruction.symbolic?).foldl Allocation.allot
              ⟨layout.symbols, firstVariable⟩).symbols := by
          rw [filterMap_executable fun _ => rfl, Allocation.foldl_allot, Layout.table]
        rw [Layout.assembleInstructions_eq laid, ← filterMap_executable fun _ => rfl]
        exact Allocation.emit_eq program room final
  refine ⟨same, ?_⟩
  rw [same]
  cases (assemble source).failure? <;> simp

end HackToolchain.Assembly
