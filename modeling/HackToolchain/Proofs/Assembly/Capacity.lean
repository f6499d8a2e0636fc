import HackToolchain.Proofs.Assembly.Placement

/-! When a program assembles. Labels that are new and defined once can always be laid out, unless
something stands behind the last position that has an address; after that only a number out of range
can stop the assembler. -/
namespace HackToolchain.Assembly

/-- Every label of a program is defined once and does not stand for something already. -/
structure Definable (instructions : List Instruction) : Prop where
  once : ∀ before symbol after, instructions = before ++ .label symbol :: after →
    .label symbol ∉ before
  new : ∀ symbol, .label symbol ∈ instructions → predefined.lookup symbol = none

/-- Something stands behind more words than can be addressed. -/
def Overflows (instructions : List Instruction) : Prop :=
  ∃ before i after, instructions = before ++ i :: after ∧ maxAddress < (executable before).length

namespace Layout

theorem add_full {layout : Layout} (full : maxAddress < layout.position) (i : Instruction) :
    layout.add i = .error .programTooLarge :=
  if_pos full

theorem add_label {layout : Layout} {symbol : String} (room : layout.position ≤ maxAddress)
    (free : layout.symbols[symbol]? = none) :
    layout.add (.label symbol) =
      .ok ⟨layout.symbols.insert symbol layout.position, layout.position⟩ := by
  have missing : layout.symbols.contains symbol = false := by
    simp [Std.TreeMap.contains_eq_isSome_getElem?, free]
  simp [add, Nat.not_lt.mpr room, missing]

theorem add_word {layout : Layout} {i : Instruction} (room : layout.position ≤ maxAddress)
    (word : i.isLabel = false) : layout.add i = .ok ⟨layout.symbols, layout.position + 1⟩ := by
  cases i with
  | label symbol => contradiction
  | address | compute => simp [add, Nat.not_lt.mpr room]

/-- What follows a layout can be laid out up to the first instruction without an address. -/
theorem foldlM_eq_error {start : Layout} {rest : List Instruction} {e : Error}
    (free : ∀ symbol, .label symbol ∈ rest → start.symbols[symbol]? = none)
    (once : ∀ before symbol after, rest = before ++ .label symbol :: after →
      .label symbol ∉ before) :
    rest.foldlM add start = .error e ↔ e = .programTooLarge ∧ ∃ before i after,
      rest = before ++ i :: after ∧ maxAddress < start.position + (executable before).length := by
  induction rest generalizing start with
  | nil => simp [pure, Except.pure]
  | cons i rest ih =>
    have later : ∀ before symbol after, rest = before ++ .label symbol :: after →
        .label symbol ∉ before := by
      rintro before symbol after rfl member
      exact once (i :: before) symbol after rfl (List.mem_cons_of_mem i member)
    rw [List.foldlM_cons, exists_split_cons]
    rcases Nat.lt_or_ge maxAddress start.position with full | room
    · rw [add_full full]
      constructor
      · rintro ⟨⟩
        exact ⟨rfl, .inl full⟩
      · rintro ⟨rfl, _⟩
        rfl
    have here : ¬maxAddress < start.position + (executable []).length := Nat.not_lt.mpr room
    rw [or_iff_right here]
    by_cases word : i.isLabel = false
    · rw [add_word room word]
      have counted (before : List Instruction) :
          start.position + (executable (i :: before)).length =
            start.position + 1 + (executable before).length := by
        simp [executable_cons, word]
        omega
      simp only [counted]
      exact ih (fun symbol member => free symbol (List.mem_cons_of_mem i member)) later
    · cases i with
      | address | compute => exact absurd rfl word
      | label symbol =>
        rw [add_label room (free symbol (.head _))]
        refine ih ?_ later
        intro other member
        obtain ⟨before, after, rfl⟩ := List.append_of_mem member
        have different : symbol ≠ other := by
          rintro rfl
          exact once (.label symbol :: before) symbol after rfl (.head _)
        rw [Std.TreeMap.getElem?_insert, if_neg (by simpa using different)]
        exact free other (List.mem_cons_of_mem _ member)

theorem ofInstructions_eq_error {instructions : List Instruction} {e : Error}
    (definable : Definable instructions) :
    ofInstructions instructions = .error e ↔ e = .programTooLarge ∧ Overflows instructions := by
  have initial (symbol : String) (member : .label symbol ∈ instructions) :
      (SymbolTable.initial)[symbol]? = none := by
    rw [initial_getElem?]
    exact definable.new symbol member
  rw [ofInstructions, foldlM_eq_error initial definable.once, Overflows]
  simp only [Nat.zero_add]

end Layout

/-- A program without numbers out of range assembles, unless it is too large. -/
theorem assembleInstructions_failure {instructions : List Instruction}
    (definable : Definable instructions) (loadable : ∀ i ∈ instructions, i.outOfRange = false)
    (e : Error) : (assembleInstructions instructions).failure? = some e ↔
      e = .programTooLarge ∧ Overflows instructions := by
  rw [← Layout.ofInstructions_eq_error definable]
  cases laid : Layout.ofInstructions instructions with
  | error fault =>
    rw [assembleInstructions_of_error laid]
    simp
  | ok layout =>
    have succeeded : (assembleInstructions instructions).failure? ≠ some e := by
      intro failed
      obtain ⟨symbol, before, after, _, split, range, _⟩ := Layout.emits_before laid failed
      have member : .address symbol ∈ executable instructions := split ▸ by simp
      have inside := loadable _ (mem_of_mem_executable member)
      rw [Instruction.outOfRange, range] at inside
      contradiction
    simp [succeeded]

end HackToolchain.Assembly
