import HackToolchain.Proofs.Codegen.Labels

/-! A writer that is used on and on, in any way, never writes a label twice, and it refuses just the
labels that the program chose before. -/
namespace HackToolchain.Codegen

open Assembly (Instruction)

/-- Every label that a writer has written is accounted for, and so are the names it goes on with. -/
structure Consistent (w : Writer) : Prop where
  unlimited : w.sink.room? = none
  whole : w.sink.cut = .empty
  legal : ∀ line ∈ w.sink.lines.toList, line.Legal
  distinct : (labels w.sink.code).Nodup
  accounted : ∀ symbol ∈ labels w.sink.code,
    symbol ∈ w.scope.defined ∨ ∃ n < w.scope.nextLabel, Numbered n symbol
  plain : ∀ symbol ∈ w.scope.defined, symbol.toList.head? ≠ some '$'
  function : ∀ name ∈ w.scope.function?, Vm.isSymbol name

theorem consistent_new (annotate : Bool) : Consistent (.new .unlimited annotate) where
  unlimited := rfl
  whole := rfl
  legal := by simp [Writer.new, Sink.unlimited, Sink.empty]
  distinct := List.nodup_nil
  accounted := nofun
  plain := by simp [Writer.new, Scope.empty]
  function := nofun

theorem Sink.code_extend (s : Sink) (lines : List Line) :
    (s.extend lines).code = s.code ++ lines.filterMap Line.instruction? := by
  simp [Sink.code, Sink.extend]

theorem Consistent.write {w : Writer} (consistent : Consistent w) {scope : Scope}
    {lines : List Line} (legal : ∀ line ∈ lines, line.Legal)
    (grows : Grows w.scope scope (labels (lines.filterMap Line.instruction?)))
    (function : ∀ name ∈ scope.function?, Vm.isSymbol name) :
    Consistent ⟨scope, w.sink.extend lines, w.annotate⟩ where
  unlimited := consistent.unlimited
  whole := consistent.whole
  legal := Sink.legal_extend consistent.legal legal
  distinct := by
    rw [Sink.code_extend, labels_append]
    refine List.nodup_append'.mpr ⟨consistent.distinct, grows.distinct, ?_⟩
    intro symbol old new
    rcases grows.fresh symbol new with ⟨free, entered⟩ | ⟨n, above, _, numbered⟩
    · rcases consistent.accounted symbol old with taken | ⟨n, _, numbered⟩
      · exact free taken
      · exact ((grows.plain symbol entered).resolve_left free) numbered.starts
    · rcases consistent.accounted symbol old with taken | ⟨m, below, other⟩
      · exact consistent.plain symbol taken numbered.starts
      · have := numbered.unique other
        omega
  accounted := by
    intro symbol member
    rw [Sink.code_extend, labels_append] at member
    rcases List.mem_append.mp member with old | new
    · rcases consistent.accounted symbol old with taken | ⟨n, below, numbered⟩
      · exact .inl (grows.kept symbol taken)
      · exact .inr ⟨n, Nat.lt_of_lt_of_le below grows.counter, numbered⟩
    · rcases grows.fresh symbol new with ⟨_, taken⟩ | ⟨n, _, below, numbered⟩
      · exact .inl taken
      · exact .inr ⟨n, below, numbered⟩
  plain := by
    intro symbol member
    rcases grows.plain symbol member with old | plain
    · exact consistent.plain symbol old
    · exact plain
  function := function

open Writer (Operation Effect)

theorem legal_comment {operation : Operation} (annotate : Bool) (named : operation.Named) :
    ∀ line ∈ operation.comment annotate, line.Legal := by
  cases operation with
  | setFileName | bootstrap | emit => simp [Operation.comment]
  | command i =>
    cases annotate with
    | false => simp [Operation.comment]
    | true => exact List.forall_mem_singleton.mpr named

theorem code_comment (annotate : Bool) (operation : Operation) :
    (operation.comment annotate).filterMap Line.instruction? = [] := by
  cases operation <;> cases annotate <;> rfl

theorem Writer.Operation.Named.instruction {operation : Operation} {i : Vm.Instruction}
    (named : operation.Named) (given : operation.instruction? = some i) : i.Named := by
  cases operation <;> simp_all [Operation.instruction?, Operation.Named]

/-- What one operation preserves. Code can only be written for a file that has a name. -/
theorem Consistent.perform {w : Writer} (consistent : Consistent w) {operation : Operation}
    (named : operation.Named)
    (file : operation.instruction?.isSome → Vm.isSymbol w.scope.fileName) :
    Consistent (w.perform operation).writer := by
  have effect := Writer.effect_perform consistent.unlimited operation
  generalize w.perform operation = o at effect
  cases effect with
  | named name =>
    exact ⟨consistent.unlimited, consistent.whole, consistent.legal, consistent.distinct,
      consistent.accounted, consistent.plain, consistent.function⟩
  | started =>
    refine consistent.write ?_ ?_ consistent.function
    · rw [List.forall_mem_map]
      exact (WellFormed.start w.scope.nextLabel).legal
    · rw [code_map]
      exact grows_bootstrap w.scope
  | @written operation i code scope given generated =>
    have legal := legal_comment w.annotate named
    have named := named.instruction given
    have function := function_entering consistent.function named
    have scopes : Vm.isSymbol (w.scope.entering i).name := by
      refine isSymbol_name ?_ function
      have file := file (given ▸ rfl)
      cases i <;> exact file
    refine consistent.write ?_ ?_ ?_
    · rw [List.forall_mem_append, List.forall_mem_map]
      have files : Vm.isSymbol (w.scope.entering i).fileName := by
        cases i <;> exact file (given ▸ rfl)
      exact ⟨legal, ((codeOf_generate generated).wellFormed named
        (isSymbolText_of_isSymbol files).2 (isSymbolText_of_isSymbol scopes).2).legal⟩
    · rw [List.filterMap_append, code_comment, List.nil_append, code_map]
      exact (grows_generate generated scopes named).entering
    · rw [(generate_scope generated).2]
      exact function
  | @refused operation i e given failed =>
    refine consistent.write (legal_comment w.annotate named) ?_
      (function_entering consistent.function (named.instruction given))
    rw [code_comment]
    exact grows_entering w.scope i

theorem Consistent.setFileName {w : Writer} (consistent : Consistent w) {name : String}
    (symbol : Vm.isSymbol name) : Consistent (w.perform (.setFileName name)).writer :=
  consistent.perform symbol nofun

namespace Writer

theorem fileName_perform {w : Writer} (unlimited : w.sink.room? = none) {operation : Operation}
    (named : operation.Named) (file : Vm.isSymbol w.scope.fileName) :
    Vm.isSymbol (w.perform operation).writer.scope.fileName := by
  have effect := effect_perform unlimited operation
  generalize w.perform operation = o at effect
  cases effect with
  | named name => exact named
  | started => exact file
  | @written operation i code scope given generated =>
    rw [(generate_scope generated).1]
    cases i <;> exact file
  | @refused operation i e given failed => cases i <;> exact file

end Writer

/-- What a run of operations preserves, once the unit being written has a name. -/
theorem Consistent.after {w : Writer} (consistent : Consistent w) {operations : List Operation}
    (named : ∀ operation ∈ operations, operation.Named) (file : Vm.isSymbol w.scope.fileName) :
    Consistent (w.after operations) := by
  induction operations generalizing w with
  | nil => exact consistent
  | cons operation rest ih =>
    obtain ⟨first, rest⟩ := List.forall_mem_cons.mp named
    exact ih (consistent.perform first fun _ => file) rest
      (Writer.fileName_perform consistent.unlimited first file)

/-- The lines of a text that define a label. -/
def labelLines (text : List Char) : List (List Char) :=
  (Text.lines text).filter (·.head? = some '(')

theorem Line.head?_body {line : Line} :
    line.body.head? = some '(' ↔ ∃ symbol, line = .code (.label symbol) := by
  cases line with
  | comment command => simp [Line.body]
  | code i =>
    cases i with
    | address symbol => simp [Line.body, Assembly.toList_text_address]
    | label symbol => simp [Line.body, Assembly.toList_text_label]
    | compute dest comp jump =>
      constructor
      · intro head
        rw [Line.body, Assembly.toList_text_compute] at head
        rcases (Assembly.isTarget_targetChars dest).head comp jump '(' head with letter | sign
        · contradiction
        · contradiction
      · rintro ⟨symbol, ⟨⟩⟩

/-- The line that defines a label. -/
def labelLine (symbol : String) : List Char :=
  (Instruction.label symbol).text.toList

theorem labelLine_injective : Function.Injective labelLine := by
  intro first second same
  simpa [labelLine, Assembly.toList_text_label, String.toList_inj] using same

theorem filter_body (lines : List Line) :
    (lines.map Line.body).filter (·.head? = some '(') =
      (labels (lines.filterMap Line.instruction?)).map labelLine := by
  induction lines with
  | nil => rfl
  | cons line rest ih =>
    rw [List.map_cons, List.filterMap_cons]
    by_cases head : line.body.head? = some '('
    · obtain ⟨symbol, rfl⟩ := Line.head?_body.mp head
      rw [List.filter_cons_of_pos (by simpa using head), ih]
      rfl
    · rw [List.filter_cons_of_neg (by simpa using head), ih]
      cases line with
      | comment command => rfl
      | code i =>
        cases i with
        | label symbol => exact absurd (Line.head?_body.mpr ⟨symbol, rfl⟩) head
        | address | compute => rfl

/-- The label lines of a consistent writer are those of the labels that it has written. -/
theorem Consistent.labelLines {w : Writer} (consistent : Consistent w) :
    labelLines w.sink.text.toList = (labels w.sink.code).map labelLine := by
  rw [Codegen.labelLines, Sink.lines_text consistent.legal, List.filter_append, filter_body]
  simp [Sink.code]

/-- The label that an operation defines by the program's choice. -/
def Writer.Operation.defines? (operation : Operation) (w : Writer) : Option String :=
  operation.instruction?.bind (chosen? w.scope.name)

theorem chosen?_entering (s : Scope) (i : Vm.Instruction) :
    chosen? (s.entering i).name i = chosen? s.name i := by
  cases i <;> rfl

theorem defined_entering (s : Scope) (i : Vm.Instruction) : (s.entering i).defined = s.defined := by
  cases i <;> rfl

namespace Writer

/-- An operation is refused because of a label exactly when it defines one that is taken. -/
theorem perform_duplicate {w : Writer} (unlimited : w.sink.room? = none) {operation : Operation}
    {symbol : String} :
    (w.perform operation).failure? = some (.code (.duplicateLabel symbol)) ↔
      operation.defines? w = some symbol ∧ symbol ∈ w.scope.defined := by
  have effect := effect_perform unlimited operation
  generalize w.perform operation = o at effect
  cases effect with
  | named | started => simp [Operation.defines?, Operation.instruction?]
  | @written operation i code scope given generated =>
    have free := (generate_taken generated).2
    rw [Operation.defines?, given, Option.bind_some, ← chosen?_entering]
    constructor
    · rintro ⟨⟩
    · rintro ⟨chosen, taken⟩
      rw [chosen, defined_entering] at free
      exact absurd taken free.1
  | @refused operation i e given failed =>
    rw [Operation.defines?, given, Option.bind_some, ← chosen?_entering,
      ← defined_entering w.scope i, ← generate_duplicate, failed]
    simp

/-- An operation that succeeds takes the label it defines, and no other. -/
theorem perform_defined {w : Writer} (unlimited : w.sink.room? = none) (operation : Operation)
    (symbol : String) :
    symbol ∈ (w.perform operation).writer.scope.defined ↔ symbol ∈ w.scope.defined ∨
      operation.defines? w = some symbol ∧ (w.perform operation).failure? = none := by
  have effect := effect_perform unlimited operation
  generalize w.perform operation = o at effect
  cases effect with
  | named | started =>
    simp [Operation.defines?, Operation.instruction?, Writer.setFileName, Scope.bootstrap]
  | @written operation i code scope given generated =>
    have table := (generate_taken generated).2
    rw [chosen?_entering, defined_entering] at table
    rw [Operation.defines?, given, Option.bind_some]
    cases chosen : chosen? w.scope.name i with
    | none =>
      rw [chosen] at table
      simp [table]
    | some other =>
      rw [chosen] at table
      rw [table.2, mem_insert]
      simp [or_comm]
  | @refused operation i e given failed => simp [defined_entering]

/-- A label is taken after a run if it was before or if an operation of the run defined it. -/
theorem after_defined {w : Writer} (unlimited : w.sink.room? = none)
    (operations : List Operation) (symbol : String) :
    symbol ∈ (w.after operations).scope.defined ↔ symbol ∈ w.scope.defined ∨
      ∃ earlier operation later, operations = earlier ++ operation :: later ∧
        operation.defines? (w.after earlier) = some symbol ∧
        ((w.after earlier).perform operation).failure? = none := by
  induction operations generalizing w with
  | nil => simp
  | cons operation rest ih =>
    rw [after_cons, ih ((effect_perform unlimited operation).unlimited unlimited),
      perform_defined unlimited, or_assoc, Assembly.exists_split_cons]
    exact Iff.rfl

end Writer

/-- However a writer is used once it has the name of a unit, it defines no label twice; it refuses a
label exactly if the program chose it and an earlier operation has defined it. -/
theorem labels_unique (annotate : Bool) (file : String) (operations : List Operation)
    (named : ∀ operation ∈ .setFileName file :: operations, operation.Named) :
    let w := Writer.new .unlimited annotate
    let run := .setFileName file :: operations
    (labelLines (w.after run).sink.text.toList).Nodup ∧
      ∀ before operation later, run = before ++ operation :: later → ∀ symbol,
        ((w.after before).perform operation).failure? = some (.code (.duplicateLabel symbol)) ↔
          operation.defines? (w.after before) = some symbol ∧
          ∃ earlier other between, before = earlier ++ other :: between ∧
            other.defines? (w.after earlier) = some symbol ∧
            ((w.after earlier).perform other).failure? = none := by
  intro w run
  obtain ⟨first, rest⟩ := List.forall_mem_cons.mp named
  have consistent : Consistent (w.after run) :=
    ((consistent_new annotate).setFileName first).after rest first
  constructor
  · rw [consistent.labelLines]
    exact consistent.distinct.map labelLine_injective
  · intro before operation later _ symbol
    rw [Writer.perform_duplicate (Writer.after_unlimited rfl before),
      Writer.after_defined rfl before]
    have empty : symbol ∉ w.scope.defined := by simp [w, Writer.new, Scope.empty]
    rw [or_iff_right empty]

theorem labels_unique_again :
    let w := Writer.new .unlimited false
    let loop : Operation := .emit (.label "LOOP")
    let run := [.setFileName "Main", loop, .emit (.arithmetic .eq), loop]
    (labelLines (w.after run).sink.text.toList).Nodup ∧
      ((w.after (run.take 3)).perform loop).failure? =
        some (.code (.duplicateLabel "Main$LOOP")) := by
  intro w loop run
  obtain ⟨distinct, refused⟩ := labels_unique false "Main" [loop, .emit (.arithmetic .eq), loop]
    (by simp [loop, Operation.Named, Vm.Instruction.Named]; decide)
  constructor
  · exact distinct
  · apply (refused [.setFileName "Main", loop, .emit (.arithmetic .eq)] loop [] rfl _).mpr
    exact ⟨rfl, [.setFileName "Main"], loop, [.emit (.arithmetic .eq)], rfl, rfl, rfl⟩

end HackToolchain.Codegen
