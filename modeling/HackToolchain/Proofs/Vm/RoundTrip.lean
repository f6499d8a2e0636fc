import HackToolchain.Proofs.Vm.Printing

/-! Reading undoes printing. Instructions that are printed one below the other are read as themselves,
each on the line that it was printed on, whatever names they have; so what any source is read as can be
printed and read again. -/
namespace HackToolchain.Vm

/-- A text is read without an error as these instructions, the first on the first line and each other
one on the next. -/
def ReadsAs (source : String) (instructions : List Instruction) : Prop :=
  ∃ s, tokenize source = .ok s ∧
    List.Forall₂ (fun reading (i, line) => reading.line = line ∧ reading.Yields i) s.readings
      (instructions.zipIdx 1)

theorem ReadsAs.yields {source : String} {instructions : List Instruction}
    (reads : ReadsAs source instructions) : ∃ s, tokenize source = .ok s ∧
      List.Forall₂ Reading.Yields s.readings instructions := by
  obtain ⟨s, tokenized, placed⟩ := reads
  refine ⟨s, tokenized, ?_⟩
  rw [← List.zipIdx_map_fst 1 instructions, List.forall₂_map_right_iff]
  exact placed.imp fun _ _ here => here.2

theorem Token.Legible.numeric {token : Token} (legible : token.Legible) : token.Numeric :=
  (cutFrom_wordTokens legible.read token (List.mem_singleton_self token)).numeric

theorem TokenStream.yields_tokens {instructions : List Instruction}
    (named : ∀ i ∈ instructions, i.Named) (k endLine : Nat) :
    List.Forall₂ (fun reading (i, line) => reading.line = line ∧ reading.Yields i)
      (readings ⟨(instructions.zipIdx k).flatMap fun (i, line) => i.tokens line, endLine⟩)
      (instructions.zipIdx k) := by
  induction instructions generalizing k with
  | nil =>
    rw [List.zipIdx_nil, List.flatMap_nil, readings_nil]
    exact .nil
  | cons i rest ih =>
    obtain ⟨first, others⟩ := List.forall_mem_cons.mp named
    have numeric : ∀ token ∈ i.tokens k, token.Numeric := fun token member =>
      (i.legible_tokens first k token member).numeric
    obtain ⟨c, written, typed⟩ := (Instruction.spells_tokens first k).exists_written numeric
    rw [List.zipIdx_cons, List.flatMap_cons, readings_of_written written]
    exact .cons ⟨rfl, Reading.yields_iff.mpr ⟨c, rfl, typed⟩⟩ (ih others (k + 1))

theorem Instruction.lineTokens_text {i : Instruction} (named : i.Named) (line : Nat) :
    lineTokens i.text.toList line = .ok (i.tokens line) := by
  rw [toList_text i line]
  exact lineTokens_spaced (i.legible_tokens named line) (line_tokens line i)

/-- Blank lines at the end do not matter. -/
theorem tokenize_lines {source : String} {instructions : List Instruction} {blank : Nat}
    (named : ∀ i ∈ instructions, i.Named)
    (lines : Text.lines source.toList =
      instructions.map (·.text.toList) ++ List.replicate blank []) :
    ∃ endLine, tokenize source =
      .ok ⟨(instructions.zipIdx 1).flatMap fun (i, line) => i.tokens line, endLine⟩ := by
  let parts := ((instructions.zipIdx 1).map fun (i, line) => i.tokens line) ++
    ((List.replicate blank ([] : List Char)).zipIdx (1 + instructions.length)).map fun _ => []
  have flat : parts.flatten = (instructions.zipIdx 1).flatMap fun (i, line) => i.tokens line := by
    simp [parts, List.flatMap_def]
  refine ⟨_, tokenize_eq_ok.mpr ⟨parts, ?_, congrArg (TokenStream.mk · _) flat⟩⟩
  rw [Text.numberedLines, lines, List.zipIdx_append, List.zipIdx_map, List.length_map]
  apply List.rel_append
  · rw [List.forall₂_map_left_iff, List.forall₂_map_right_iff, List.forall₂_same]
    rintro ⟨i, line⟩ member
    exact Instruction.lineTokens_text (named i (List.fst_mem_of_mem_zipIdx member)) line
  · rw [List.forall₂_map_right_iff, List.forall₂_same]
    rintro ⟨text, line⟩ member
    obtain rfl : text = [] := List.eq_of_mem_replicate (List.fst_mem_of_mem_zipIdx member)
    rfl

theorem readsAs_of_lines {source : String} {instructions : List Instruction}
    (named : ∀ i ∈ instructions, i.Named) (blank : Nat)
    (lines : Text.lines source.toList =
      instructions.map (·.text.toList) ++ List.replicate blank []) :
    ReadsAs source instructions := by
  obtain ⟨endLine, tokenized⟩ := tokenize_lines named lines
  exact ⟨_, tokenized, TokenStream.yields_tokens named 1 endLine⟩

theorem Instruction.not_mem_text {i : Instruction} (named : i.Named) : '\n' ∉ i.text.toList := by
  rw [toList_text i 1]
  intro member
  exact absurd (isWordChar_spaced (i.legible_tokens named 1) member) (by decide)

theorem lines_printed {instructions : List Instruction} (named : ∀ i ∈ instructions, i.Named)
    (some : instructions ≠ []) :
    Text.lines (printed instructions).toList = instructions.map (·.text.toList) := by
  induction instructions with
  | nil => contradiction
  | cons i rest ih =>
    obtain ⟨first, others⟩ := List.forall_mem_cons.mp named
    have alone := Text.lines_of_not_mem (Instruction.not_mem_text first)
    cases rest with
    | nil => exact alone
    | cons next later =>
      have below := ih others (List.cons_ne_nil _ _)
      have text : (printed (i :: next :: later)).toList =
          i.text.toList ++ '\n' :: (printed (next :: later)).toList := by
        simp [printed]
      rw [text, Text.lines_joined, alone, below]
      rfl

theorem readsAs_printed {instructions : List Instruction} (named : ∀ i ∈ instructions, i.Named) :
    ReadsAs (printed instructions) instructions ∧
      ReadsAs (printed instructions ++ "\n") instructions := by
  have closed : Text.lines (printed instructions ++ "\n").toList =
      Text.lines (printed instructions).toList ++ [[]] := by
    rw [String.toList_append]
    exact Text.lines_joined _ []
  by_cases none : instructions = []
  · subst none
    exact ⟨readsAs_of_lines named 1 rfl, readsAs_of_lines named 2 closed⟩
  · have lines := lines_printed named none
    rw [lines] at closed
    exact ⟨readsAs_of_lines named 0 (by simpa using lines), readsAs_of_lines named 1 closed⟩

theorem Spells.named {line : Nat} {used : List Token} {i : Instruction}
    (spells : Spells line used i) : i.Named := by
  cases spells with
  | arithmetic | «return» | push | pop => trivial
  | label symbol | goto symbol | ifGoto symbol => exact symbol
  | function symbol | call symbol => exact symbol

theorem named_of_yields {s : TokenStream} {instructions : List Instruction}
    (yields : List.Forall₂ Reading.Yields s.readings instructions) :
    ∀ i ∈ instructions, i.Named := by
  intro i member
  obtain ⟨groups, _, spelled⟩ := sentence_of_yields yields
  obtain ⟨group, _, line, spells⟩ := exists_of_mem_right spelled member
  exact spells.named

/-- Instructions with symbols for names are read back from what they are printed as, with or without a
line feed at the end; and so are the instructions of every source that is read without an error. -/
theorem printed_round_trip :
    (∀ instructions : List Instruction, (∀ i ∈ instructions, i.Named) →
      ReadsAs (printed instructions) instructions ∧
        ReadsAs (printed instructions ++ "\n") instructions) ∧
    ∀ source s instructions, tokenize source = .ok s →
      List.Forall₂ Reading.Yields s.readings instructions →
      ReadsAs (printed instructions) instructions ∧
        ReadsAs (printed instructions ++ "\n") instructions := by
  constructor
  · intro instructions named
    exact readsAs_printed named
  · intro source s instructions _ yields
    exact readsAs_printed (named_of_yields yields)

/-- Keywords and segments are names like any others. -/
theorem printed_round_trip_keywords :
    ReadsAs "function push 65535\nlabel constant\npush static 65535\nif-goto label\nreturn\n"
      [.function "push" 65535, .label "constant", .push .static 65535, .ifGoto "label", .return] := by
  have named : ∀ i ∈ [Instruction.function "push" 65535, .label "constant", .push .static 65535,
      .ifGoto "label", .return], i.Named := by
    simp only [List.forall_mem_cons, Instruction.Named]
    exact ⟨by decide, by decide, trivial, by decide, trivial, nofun⟩
  exact (printed_round_trip.1 _ named).2

end HackToolchain.Vm
