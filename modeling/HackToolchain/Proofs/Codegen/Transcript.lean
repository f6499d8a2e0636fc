import HackToolchain.Proofs.Codegen.Uniqueness

/-! The instructions that a writer sends out are what the assembler reads: the same ones in the same
order, for every way of using a writer. What is sent out is computed from the operations alone,
without any text. -/
namespace HackToolchain.Codegen

open Assembly (Instruction characters)

namespace Writer

/-- The instructions of an operation, and the scope after it. An instruction without code has none
and leaves only the function that it enters. -/
def Operation.generate (s : Scope) : Operation → List Instruction × Scope
  | .setFileName name => ([], { s with fileName := name })
  | .bootstrap => s.bootstrap
  | .emit i | .command i =>
    match (s.entering i).generate i with
    | .ok generated => generated
    | .error _ => ([], s.entering i)

/-- Everything that operations send out. -/
def transcript : Scope → List Operation → List Instruction
  | _, [] => []
  | s, operation :: rest =>
    (operation.generate s).1 ++ transcript (operation.generate s).2 rest

theorem generate_instruction {operation : Operation} {i : Vm.Instruction} (s : Scope)
    (given : operation.instruction? = some i) :
    operation.generate s = match (s.entering i).generate i with
      | .ok generated => generated
      | .error _ => ([], s.entering i) := by
  cases operation with
  | setFileName | bootstrap => contradiction
  | emit | command =>
    obtain rfl := Option.some.inj given
    rfl

/-- An operation writes its comment and its instructions, and nothing else. -/
theorem writer_perform {w : Writer} (unlimited : w.sink.room? = none) (operation : Operation) :
    (w.perform operation).writer =
      ⟨(operation.generate w.scope).2, w.sink.extend (operation.comment w.annotate ++
        (operation.generate w.scope).1.map .code), w.annotate⟩ := by
  have effect := effect_perform unlimited operation
  generalize w.perform operation = o at effect
  cases effect with
  | named name =>
    simp only [Operation.generate, Operation.comment, List.map_nil, List.append_nil, extend_nil]
    rfl
  | started => rfl
  | written given generated => rw [generate_instruction w.scope given, generated]
  | refused given failed =>
    rw [generate_instruction w.scope given, failed, List.map_nil, List.append_nil]

end Writer

/-- The names that a scope puts into symbols; before any file is named there may be none. -/
structure Scope.Plain (s : Scope) : Prop where
  file : ∀ c ∈ s.fileName.toList, Assembly.isSymbolChar c
  function : ∀ name ∈ s.function?, Vm.isSymbol name

theorem Scope.plain_empty : Scope.empty.Plain :=
  ⟨by simp [Scope.empty], nofun⟩

namespace Scope.Plain

variable {s : Scope} {i : Vm.Instruction}

theorem name (plain : s.Plain) : ∀ c ∈ s.name.toList, Assembly.isSymbolChar c := by
  rw [Scope.name]
  cases current : s.function? with
  | none => exact plain.file
  | some function => exact (isSymbolText_of_isSymbol (plain.function function current)).2

theorem entering (plain : s.Plain) (named : i.Named) : (s.entering i).Plain :=
  ⟨by cases i <;> exact plain.file, function_entering plain.function named⟩

theorem legal {code : List Instruction} {after : Scope} (plain : s.Plain) (named : i.Named)
    (generated : s.generate i = .ok (code, after)) : ∀ j ∈ code, Legal j :=
  ((codeOf_generate generated).wellFormed named plain.file plain.name).legal

theorem generate {code : List Instruction} {after : Scope} (plain : s.Plain)
    (generated : s.generate i = .ok (code, after)) : after.Plain := by
  obtain ⟨file, function⟩ := generate_scope generated
  constructor
  · exact file ▸ plain.file
  · exact function ▸ plain.function

end Scope.Plain

open Writer (Operation transcript)

/-- What one operation preserves. -/
theorem Scope.Plain.operation {s : Scope} (plain : s.Plain) {operation : Operation}
    (named : operation.Named) :
    (∀ i ∈ (operation.generate s).1, Legal i) ∧ (operation.generate s).2.Plain := by
  have instruction {i : Vm.Instruction} (given : operation.instruction? = some i) :
      (∀ j ∈ (operation.generate s).1, Legal j) ∧ (operation.generate s).2.Plain := by
    have entered := plain.entering (named.instruction given)
    rw [Writer.generate_instruction s given]
    split
    · rename_i result generated
      exact ⟨entered.legal (named.instruction given) generated, entered.generate generated⟩
    · exact ⟨by simp, entered⟩
  cases operation with
  | setFileName name =>
    exact ⟨by simp [Operation.generate], (isSymbolText_of_isSymbol named).2, plain.function⟩
  | bootstrap => exact ⟨(WellFormed.start s.nextLabel).legal, plain.file, plain.function⟩
  | emit i | command i => exact instruction rfl

/-- A writer that has sent out instructions, each in a line that can be read back. -/
structure Transcribed (annotate : Bool) (w : Writer) (sent : List Instruction) : Prop where
  annotates : w.annotate = annotate
  unlimited : w.sink.room? = none
  whole : w.sink.cut = .empty
  legal : ∀ line ∈ w.sink.lines.toList, line.Legal
  plain : w.scope.Plain
  code : w.sink.code = sent
  bare : annotate = false → w.sink.lines.toList = sent.map .code

theorem transcribed_new (annotate : Bool) : Transcribed annotate (.new .unlimited annotate) [] where
  annotates := rfl
  unlimited := rfl
  whole := rfl
  legal := by simp [Writer.new, Sink.unlimited, Sink.empty]
  plain := Scope.plain_empty
  code := rfl
  bare := fun _ => rfl

theorem Transcribed.perform {annotate : Bool} {w : Writer} {sent : List Instruction}
    (transcribed : Transcribed annotate w sent) {operation : Operation} (named : operation.Named) :
    Transcribed annotate (w.perform operation).writer (sent ++ (operation.generate w.scope).1) := by
  obtain ⟨legal, plain⟩ := transcribed.plain.operation named
  rw [Writer.writer_perform transcribed.unlimited]
  constructor
  · exact transcribed.annotates
  · exact transcribed.unlimited
  · exact transcribed.whole
  · apply Sink.legal_extend transcribed.legal
    rw [List.forall_mem_append, List.forall_mem_map]
    exact ⟨legal_comment w.annotate named, legal⟩
  · exact plain
  · rw [Sink.code_extend, List.filterMap_append, code_comment, code_map, transcribed.code,
      List.nil_append]
  · intro bare
    have silent : operation.comment w.annotate = [] := by
      rw [transcribed.annotates, bare]
      cases operation <;> rfl
    simp only [Sink.extend, Array.toList_append, silent, transcribed.bare bare, List.nil_append,
      List.map_append]

/-- What a run of operations has sent out, from any scope on. -/
theorem Transcribed.after {annotate : Bool} {w : Writer} {sent : List Instruction}
    (transcribed : Transcribed annotate w sent) {operations : List Operation}
    (named : ∀ operation ∈ operations, operation.Named) :
    Transcribed annotate (w.after operations) (sent ++ transcript w.scope operations) := by
  induction operations generalizing w sent with
  | nil => simpa [transcript] using transcribed
  | cons operation rest ih =>
    obtain ⟨first, rest⟩ := List.forall_mem_cons.mp named
    have scope : (w.perform operation).writer.scope = (operation.generate w.scope).2 := by
      rw [Writer.writer_perform transcribed.unlimited]
    have later := ih (transcribed.perform first) rest
    rw [scope, List.append_assoc] at later
    exact later

/-- Whatever operations a writer is put to, the assembler reads from its bytes the instructions that
were sent out, in order; without comments each of them has a line of its own. -/
theorem read_transcript (annotate : Bool) (operations : List Operation)
    (named : ∀ operation ∈ operations, operation.Named) :
    let bytes := ((Writer.new .unlimited annotate).after operations).sink.bytes
    Assembly.parse (characters bytes) = .ok (transcript .empty operations) ∧
      (annotate = false → Text.lines (characters bytes) =
        (transcript .empty operations).map (·.text.toList) ++ [[]]) := by
  intro bytes
  obtain ⟨_, _, whole, legal, _, code, bare⟩ := (transcribed_new annotate).after named
  constructor
  · exact (Sink.parse_bytes whole legal).trans (congrArg Except.ok code)
  · intro silent
    rw [Sink.characters_bytes whole legal, Sink.lines_text legal, bare silent, List.map_map]
    rfl

theorem read_transcript_loop :
    let run := [.bootstrap, .setFileName "Main", .command (.label "LOOP"),
      .command (.push .static 3), .emit (.goto "LOOP")]
    let bytes := ((Writer.new .unlimited true).after run).sink.bytes
    Assembly.parse (characters bytes) = .ok (start 0 ++ [.label "Main$LOOP"] ++
      loadD "Main.3" ++ push .d ++ jumpTo "Main$LOOP") := by
  intro run bytes
  have named : ∀ operation ∈ run, operation.Named := by
    simp [run, Operation.Named, Vm.Instruction.Named]
    decide
  exact (read_transcript true run named).1

end HackToolchain.Codegen
