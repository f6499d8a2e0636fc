import HackToolchain.Proofs.Codegen.Transcript

/-! Comments change nothing. A writer with comments goes through the same scopes and fails in the
same place as one without, and what it writes is the same but for the lines of the comments. -/
namespace HackToolchain.Codegen

open Assembly (Instruction characters byteChar byteChar_injective)

def Line.isCode : Line → Bool
  | .code _ => true
  | .comment _ => false

def Sink.silenced (s : Sink) : Sink :=
  { s with lines := s.lines.filter Line.isCode }

def Writer.silenced (w : Writer) : Writer :=
  ⟨w.scope, w.sink.silenced, false⟩

def Outcome.silenced (o : Outcome) : Outcome :=
  ⟨o.writer.silenced, o.failure?⟩

theorem Sink.silenced_extend (s : Sink) (lines : List Line) :
    (s.extend lines).silenced = s.silenced.extend (lines.filter Line.isCode) := by
  simp [Sink.silenced, Sink.extend, Array.filter_append]

theorem filter_code (code : List Instruction) :
    (code.map Line.code).filter Line.isCode = code.map .code := by
  rw [List.filter_eq_self, List.forall_mem_map]
  exact fun _ _ => rfl

theorem filter_comment (annotate : Bool) (operation : Writer.Operation) :
    (operation.comment annotate).filter Line.isCode = [] := by
  cases operation <;> cases annotate <;> rfl

theorem Sink.code_silenced (s : Sink) : s.silenced.code = s.code := by
  simp only [Sink.code, Sink.silenced, Array.toList_filter, List.filterMap_filter]
  congr
  funext line
  cases line <;> rfl

namespace Writer

theorem silenced_emit {w : Writer} (unlimited : w.sink.room? = none) (i : Vm.Instruction) :
    (w.emit i).silenced = w.silenced.emit i := by
  cases generated : (w.scope.entering i).generate i with
  | error e =>
    rw [emit_of_error generated, emit_of_error (by exact generated)]
    rfl
  | ok result =>
    obtain ⟨code, scope⟩ := result
    rw [emit_succeeded unlimited generated, emit_succeeded (by exact unlimited) (by exact generated)]
    simp only [Outcome.silenced, Writer.silenced, Sink.silenced_extend, filter_code]

theorem silenced_bootstrap {w : Writer} (unlimited : w.sink.room? = none) :
    w.bootstrap.silenced = w.silenced.bootstrap := by
  rw [bootstrap_succeeded unlimited, bootstrap_succeeded (by exact unlimited)]
  simp only [Outcome.silenced, Writer.silenced, Sink.silenced_extend, filter_code]

theorem silenced_perform {w : Writer} (unlimited : w.sink.room? = none) (operation : Operation) :
    (w.perform operation).silenced = w.silenced.perform operation := by
  cases operation with
  | setFileName name => rfl
  | bootstrap => exact silenced_bootstrap unlimited
  | emit i => exact silenced_emit unlimited i
  | command i =>
    have commented : w.put (if w.annotate then [.comment i] else []) =
        ⟨⟨w.scope, w.sink.extend (Operation.comment w.annotate (.command i)), w.annotate⟩, none⟩ :=
      put_succeeded unlimited _
    have emitted := silenced_emit (w := ⟨w.scope,
      w.sink.extend (Operation.comment w.annotate (.command i)), w.annotate⟩) unlimited i
    have same : Writer.silenced ⟨w.scope,
        w.sink.extend (Operation.comment w.annotate (.command i)), w.annotate⟩ = w.silenced := by
      simp only [Writer.silenced, Sink.silenced_extend, filter_comment, extend_nil]
    rw [same] at emitted
    rw [perform, command, commented]
    exact emitted

end Writer

/-- What a writer does operation by operation, until one fails or the text gives out. -/
inductive Script : (Writer → Outcome) → Prop
  | ends (failure? : Option Vm.Error) : Script fun w => ⟨w, failure?⟩
  | perform {operation : Writer.Operation} (named : operation.Named) :
      Script fun w => w.perform operation
  | andThen {first next : Writer → Outcome} (script : Script first) (later : Script next) :
      Script fun w => (first w).andThen next

namespace Script

theorem commands {instructions : List Vm.Instruction} (named : ∀ i ∈ instructions, i.Named) :
    Script fun w => w.commands instructions := by
  induction instructions with
  | nil => exact .ends none
  | cons i rest ih =>
    obtain ⟨first, others⟩ := List.forall_mem_cons.mp named
    have command : Script fun w => w.perform (.command i) := perform first
    simp only [Writer.commands_cons]
    exact command.andThen (ih others)

theorem unit {name : String} (legal : Vm.isSymbol name) (source : String) :
    Script fun w => (w.setFileName name).unit source := by
  have named : Script fun w => w.perform (.setFileName name) := perform legal
  exact (named.andThen (commands (named_unitInstructions source))).andThen (.ends _)

theorem units {units : List (String × String)} (names : ∀ unit ∈ units, Vm.isSymbol unit.1) :
    Script fun w => w.units units := by
  induction units with
  | nil => exact .ends none
  | cons first rest ih =>
    obtain ⟨name, others⟩ := List.forall_mem_cons.mp names
    simp only [Writer.units_cons]
    exact (unit name first.2).andThen (ih others)

/-- The lines written before a failure are as legible as any. -/
theorem transcribed {run : Writer → Outcome} (script : Script run) {annotate : Bool} {w : Writer}
    {sent : List Instruction} (transcribed : Transcribed annotate w sent) :
    ∃ sent', Transcribed annotate (run w).writer sent' := by
  induction script generalizing w sent with
  | ends failure? => exact ⟨sent, transcribed⟩
  | perform named => exact ⟨_, transcribed.perform named⟩
  | @andThen first next _ _ ih later =>
    obtain ⟨between, written⟩ := ih transcribed
    dsimp only [Outcome.andThen]
    split
    · exact later written
    · exact ⟨between, written⟩

/-- Whether there are comments makes no difference to what a writer does besides. -/
theorem silenced {run : Writer → Outcome} (script : Script run) {annotate : Bool} {w : Writer}
    {sent : List Instruction} (transcribed : Transcribed annotate w sent) :
    (run w).silenced = run w.silenced := by
  induction script generalizing w sent with
  | ends failure? => rfl
  | perform named => exact Writer.silenced_perform transcribed.unlimited _
  | @andThen first next script _ ih later =>
    have same := ih transcribed
    obtain ⟨between, written⟩ := script.transcribed transcribed
    dsimp only
    rw [← same]
    cases failure : (first w).failure? with
    | none =>
      simp only [Outcome.andThen, Outcome.silenced, failure]
      exact later written
    | some e => simp only [Outcome.andThen, Outcome.silenced, failure]

end Script

theorem script_translation (bootstrap : Bool) {units : List (String × String)}
    (names : ∀ unit ∈ units, Vm.isSymbol unit.1) :
    ∃ run, Script run ∧ ∀ annotate, translation bootstrap annotate units =
      run (.new .unlimited annotate) := by
  cases bootstrap with
  | false => exact ⟨_, .units names, fun annotate => rfl⟩
  | true =>
    have started : Writer.Operation.Named .bootstrap := trivial
    exact ⟨_, (Script.perform started).andThen (.units names), fun annotate => rfl⟩

theorem transcribed_translation (bootstrap annotate : Bool) {units : List (String × String)}
    (names : ∀ unit ∈ units, Vm.isSymbol unit.1) :
    ∃ sent, Transcribed annotate (translation bootstrap annotate units).writer sent := by
  obtain ⟨run, script, translates⟩ := script_translation bootstrap names
  rw [translates]
  exact script.transcribed (transcribed_new annotate)

theorem silenced_translation (bootstrap : Bool) {units : List (String × String)}
    (names : ∀ unit ∈ units, Vm.isSymbol unit.1) :
    (translation bootstrap true units).silenced = translation bootstrap false units := by
  obtain ⟨run, script, translates⟩ := script_translation bootstrap names
  rw [translates, translates, script.silenced (transcribed_new true)]
  rfl

/-- A text without the lines that start with two slashes. -/
def withoutComments (bytes : ByteArray) : ByteArray :=
  let lines := bytes.data.toList.splitOn 0x0a
  ⟨([0x0a].intercalate (lines.filter fun line => ¬ [0x2f, 0x2f] <+: line)).toArray⟩

theorem splitOn_map [BEq α] [LawfulBEq α] [BEq β] [LawfulBEq β] {f : α → β}
    (injective : Function.Injective f) (separator : α) (items : List α) :
    (items.map f).splitOn (f separator) = (items.splitOn separator).map (List.map f) := by
  induction items with
  | nil => rfl
  | cons item rest ih =>
    rw [List.map_cons, List.splitOn_cons_eq_if_modifyHead, List.splitOn_cons_eq_if_modifyHead, ih]
    by_cases separates : item = separator
    · simp [separates]
    · have other : f item ≠ f separator := fun same => separates (injective same)
      simp only [beq_iff_eq, separates, other, if_false]
      cases rest.splitOn separator <;> rfl

/-- Lines can be told apart by their characters, comments among them. -/
theorem withoutComments_eq {bytes kept : ByteArray}
    (lines : (Text.lines (characters bytes)).filter (fun line => ¬ ['/', '/'] <+: line) =
      Text.lines (characters kept)) : withoutComments bytes = kept := by
  have split (bytes : ByteArray) : Text.lines (characters bytes) =
      (bytes.data.toList.splitOn 0x0a).map (List.map byteChar) :=
    splitOn_map byteChar_injective 0x0a bytes.data.toList
  have comment (line : List UInt8) :
      ['/', '/'] <+: line.map byteChar ↔ [0x2f, 0x2f] <+: line := by
    have slashes : ['/', '/'] = [0x2f, 0x2f].map byteChar := by decide
    rw [slashes, List.prefix_map_iff_of_injective byteChar_injective]
  rw [split, split, List.filter_map] at lines
  simp only [Function.comp_def, comment] at lines
  have same := List.map_injective_iff.mpr (List.map_injective_iff.mpr byteChar_injective) lines
  rw [withoutComments, same, List.intercalate_splitOn]

/-- What is left of legible lines without their comments. -/
theorem withoutComments_silenced {s : Sink} (whole : s.cut = .empty)
    (legal : ∀ line ∈ s.lines.toList, line.Legal) :
    withoutComments s.bytes = s.silenced.bytes := by
  have kept : ∀ line ∈ s.silenced.lines.toList, line.Legal := by
    intro line member
    rw [Sink.silenced, Array.toList_filter, List.mem_filter] at member
    exact legal line member.1
  have isCode : ∀ line ∈ s.lines.toList,
      decide (¬ ['/', '/'] <+: line.body) = line.isCode := by
    intro line member
    cases line with
    | comment command =>
      have slashes : ['/', '/'] <+: Line.body (.comment command) := ⟨_, rfl⟩
      rw [Line.isCode, decide_eq_false (not_not_intro slashes)]
    | code i =>
      have bare : ¬ ['/', '/'] <+: Line.body (.code i) := by
        intro slashes
        have slash : '/' ∈ i.text.toList := slashes.subset (.head _)
        have := Assembly.isWordChar_text (Legal.writable (legal _ member)) '/' slash
        contradiction
      rw [Line.isCode, decide_eq_true bare]
  apply withoutComments_eq
  rw [Sink.characters_bytes whole legal, Sink.lines_text legal,
    Sink.characters_bytes (s := s.silenced) whole kept, Sink.lines_text kept, List.filter_append,
    List.filter_map, Sink.silenced, Array.toList_filter]
  congr 2
  exact List.filter_congr isCode

/-- With comments and without, a program is translated up to the same place with the same result.
Without the lines of its comments the text with them is the other one, byte for byte, and both are
assembled alike. -/
theorem annotations_invisible (bootstrap : Bool) {units : List (String × String)}
    (names : ∀ unit ∈ units, Vm.isSymbol unit.1) :
    let annotated := translation bootstrap true units
    let plain := translation bootstrap false units
    annotated.failure? = plain.failure? ∧
      withoutComments annotated.writer.sink.bytes = plain.writer.sink.bytes ∧
      machineCode bootstrap true units = machineCode bootstrap false units := by
  intro annotated plain
  have silenced : annotated.silenced = plain := silenced_translation bootstrap names
  obtain ⟨sent, transcribed⟩ := transcribed_translation bootstrap true names
  obtain ⟨sent', transcribed'⟩ := transcribed_translation bootstrap false names
  have sink : annotated.writer.sink.silenced = plain.writer.sink :=
    congrArg (fun o : Outcome => o.writer.sink) silenced
  have failure : annotated.silenced.failure? = plain.failure? := by rw [silenced]
  refine ⟨failure, ?_, ?_⟩
  · rw [withoutComments_silenced transcribed.whole transcribed.legal, sink]
  · have parsed := Sink.parse_bytes transcribed.whole transcribed.legal
    have parsed' := Sink.parse_bytes transcribed'.whole transcribed'.legal
    have code : plain.writer.sink.code = annotated.writer.sink.code := by
      rw [← sink, Sink.code_silenced]
    rw [machineCode, machineCode, Assembly.assemble_of_parse parsed,
      Assembly.assemble_of_parse parsed', code]

/-- The last command has no code. -/
def beyond : List (String × String) :=
  [("Main", "label A\ngoto A // again\npush constant 40000")]

theorem annotations_invisible_beyond :
    (translation false true beyond).failure? = some (.code (.indexOutOfRange .constant 40000)) ∧
      withoutComments (translation false true beyond).writer.sink.bytes =
        "(Main$A)\n@Main$A\n0;JMP\n".toUTF8 := by
  have names : ∀ unit ∈ beyond, Vm.isSymbol unit.1 := by decide +kernel
  obtain ⟨failure, bytes, _⟩ := annotations_invisible false names
  constructor
  · rw [failure]
    decide +kernel
  · rw [bytes]
    decide +kernel

end HackToolchain.Codegen
