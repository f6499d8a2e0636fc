import HackToolchain.Proofs.Codegen.Shape
import HackToolchain.Proofs.Vm.Machine

/-! One writer's work on all units of a program. The assembler reads the bytes written as the code
of the commands, one command after the other; comments say nothing to it. -/
namespace HackToolchain.Codegen

open Assembly (Instruction characters executable)
open Vm (Located entered locate)

def Line.instruction? : Line → Option Instruction
  | .code i => some i
  | .comment _ => none

/-- A line that generated code can have. -/
def Line.Legal : Line → Prop
  | .code i => Codegen.Legal i
  | .comment command => command.Named

/-- The instructions that were written. -/
def Sink.code (s : Sink) : List Instruction :=
  s.lines.toList.filterMap Line.instruction?

/-- The stream with more lines, if all of them fit. -/
def Sink.extend (s : Sink) (lines : List Line) : Sink :=
  { s with lines := s.lines ++ lines.toArray }

/-- The characters of a line without its end. -/
def Line.body : Line → List Char
  | .code i => i.text.toList
  | .comment command => '/' :: '/' :: ' ' :: command.text.toList

theorem Line.toList_text (line : Line) : line.text.toList = line.body ++ ['\n'] := by
  cases line <;> simp [Line.text, Line.pieces, Line.body, Instruction.text, Vm.Instruction.text]

/-- Characters that stand within a line and take one byte. -/
def isInline (c : Char) : Bool :=
  c ≠ '\n' && c.toNat < 128

theorem isInline_of_isSymbolChar {c : Char} (symbol : Assembly.isSymbolChar c) : isInline c := by
  have inside : c ≠ '\n' := by
    rintro rfl
    contradiction
  simp [isInline, Assembly.toNat_lt_of_isSymbolChar symbol, inside]

theorem isInline_symbol {symbol : String} (legal : Assembly.IsSymbolText symbol) :
    ∀ c ∈ symbol.toList, isInline c :=
  fun c member => isInline_of_isSymbolChar (legal.2 c member)

theorem isInline_repr (n : Nat) : ∀ c ∈ n.repr.toList, isInline c :=
  isInline_symbol (isSymbolText_repr n)

theorem isInline_text {i : Instruction} (legal : Legal i) : ∀ c ∈ i.text.toList, isInline c := by
  intro c member
  have inside : c ≠ '\n' := by
    rintro rfl
    have := Assembly.isWordChar_text legal.writable _ member
    contradiction
  simp [isInline, Assembly.ascii_text legal.writable c member, inside]

theorem isInline_command {command : Vm.Instruction} (named : command.Named) :
    ∀ c ∈ command.text.toList, isInline c := by
  have symbol {name : String} (legal : Vm.isSymbol name) : ∀ c ∈ name.toList, isInline c :=
    isInline_symbol (isSymbolText_of_isSymbol legal)
  have segment (segment : Vm.Segment) : ∀ c ∈ segment.name.toList, isInline c := by
    cases segment <;> exact List.all_eq_true.mp (by decide)
  cases command with
  | arithmetic op => cases op <;> exact List.all_eq_true.mp (by decide)
  | «return» => exact List.all_eq_true.mp (by decide)
  | push | pop | label | goto | ifGoto | function | call =>
    simp only [Vm.Instruction.text, Vm.Instruction.pieces, String.toList_join, List.flatMap_cons,
      List.flatMap_nil, List.append_nil, List.forall_mem_append]
    simp only [Vm.Instruction.Named] at named
    refine ⟨List.all_eq_true.mp (by decide), ?_⟩
    first
      | exact symbol named
      | exact ⟨symbol named, List.all_eq_true.mp (by decide), isInline_repr _⟩
      | exact ⟨segment _, List.all_eq_true.mp (by decide), isInline_repr _⟩

theorem Line.isInline_body {line : Line} (legal : line.Legal) : ∀ c ∈ line.body, isInline c := by
  cases line with
  | code i => exact isInline_text legal
  | comment command =>
    simp only [Line.body, List.forall_mem_cons]
    exact ⟨by decide, by decide, by decide, isInline_command legal⟩

theorem Sink.toList_text (s : Sink) :
    s.text.toList = (s.lines.toList.map Line.body).flatMap (· ++ ['\n']) := by
  have appended (lines : List Line) (text : String) :
      (lines.foldl (fun text line => text ++ line.text) text).toList =
        text.toList ++ (lines.map Line.body).flatMap (· ++ ['\n']) := by
    induction lines generalizing text with
    | nil => simp
    | cons line rest ih => simp [ih, Line.toList_text]
  rw [Sink.text, ← Array.foldl_toList, appended]
  rfl

theorem Sink.text_extend (s : Sink) (lines : List Line) :
    (s.extend lines).text = s.text ++ String.join (lines.map Line.text) := by
  have joined : (String.join (lines.map Line.text)).toList =
      (lines.map Line.body).flatMap (· ++ ['\n']) := by
    simp only [String.toList_join, List.flatMap_map, Line.toList_text]
  rw [← String.toList_inj, String.toList_append, joined, Sink.toList_text, Sink.toList_text,
    Sink.extend, Array.toList_append, List.map_append, List.flatMap_append]

theorem Line.lineWords_body {line : Line} (legal : line.Legal) :
    Assembly.lineWords line.body = line.instruction?.toList.map (·.text.toList) := by
  cases line with
  | code i => exact Assembly.lineWords_text (Codegen.Legal.writable legal)
  | comment command => exact Assembly.lineWords_comment _

section Text

variable {s : Sink}

theorem Sink.isInline_bodies (legal : ∀ line ∈ s.lines.toList, line.Legal) :
    ∀ body ∈ s.lines.toList.map Line.body, ∀ c ∈ body, isInline c :=
  List.forall_mem_map.mpr fun line member => Line.isInline_body (legal line member)

theorem Sink.lines_text (legal : ∀ line ∈ s.lines.toList, line.Legal) :
    Text.lines s.text.toList = s.lines.toList.map Line.body ++ [[]] := by
  have whole : ∀ body ∈ s.lines.toList.map Line.body, '\n' ∉ body := by
    intro body line ending
    have := Sink.isInline_bodies legal body line '\n' ending
    contradiction
  rw [s.toList_text, Assembly.lines_flatMap whole]

theorem Sink.characters_bytes (whole : s.cut = .empty)
    (legal : ∀ line ∈ s.lines.toList, line.Legal) : characters s.bytes = s.text.toList := by
  have ascii : ∀ c ∈ s.text.toList, c.toNat < 128 := by
    rw [s.toList_text]
    intro c member
    obtain ⟨body, line, member⟩ := List.mem_flatMap.mp member
    rcases List.mem_append.mp member with member | ending
    · have := Sink.isInline_bodies legal body line c member
      simp only [isInline, Bool.and_eq_true, decide_eq_true_eq] at this
      exact this.2
    · exact List.mem_singleton.mp ending ▸ by decide
  rw [Sink.bytes, whole, ByteArray.append_empty, Assembly.characters_toUTF8 ascii]

theorem Sink.writable_code (legal : ∀ line ∈ s.lines.toList, line.Legal) :
    ∀ i ∈ s.code, i.Writable := by
  intro i member
  obtain ⟨line, there, found⟩ := List.mem_filterMap.mp member
  cases line with
  | code other => exact Option.some.inj found ▸ Codegen.Legal.writable (legal _ there)
  | comment command => contradiction

theorem Sink.codeWords_text (legal : ∀ line ∈ s.lines.toList, line.Legal) :
    Assembly.codeWords s.text.toList = s.code.map (·.text.toList) := by
  have words : ∀ line ∈ s.lines.toList, Assembly.lineWords line.body =
      line.instruction?.toList.map (·.text.toList) :=
    fun line member => Line.lineWords_body (legal line member)
  rw [Assembly.codeWords, Sink.lines_text legal, List.flatMap_append, List.flatMap_map,
    List.flatMap_congr words, ← List.map_flatMap, ← List.filterMap_eq_flatMap_toList, Sink.code]
  exact List.append_nil _

/-- What was written whole is read as the instructions written. -/
theorem Sink.parse_bytes (whole : s.cut = .empty) (legal : ∀ line ∈ s.lines.toList, line.Legal) :
    Assembly.parse (characters s.bytes) = .ok s.code := by
  rw [Sink.characters_bytes whole legal, Assembly.parse_eq_ok, Sink.codeWords_text legal,
    List.forall₂_map_left_iff, List.forall₂_same]
  exact fun i member => Assembly.ofWord_text (Sink.writable_code legal i member)

end Text

/-- The lines of a command: its comment, if there is to be one, above its code. -/
def commandLines (annotate : Bool) (command : Vm.Instruction) (code : List Instruction) :
    List Line :=
  (if annotate then [.comment command] else []) ++ code.map .code

theorem put_succeeded {w : Writer} (unlimited : w.sink.room? = none) (lines : List Line) :
    w.put lines = ⟨⟨w.scope, w.sink.extend lines, w.annotate⟩, none⟩ :=
  Writer.put_of_taken (Sink.put_of_unlimited w.sink unlimited lines)

theorem emit_succeeded {w : Writer} {i : Vm.Instruction} {code : List Instruction} {scope : Scope}
    (unlimited : w.sink.room? = none)
    (generated : (w.scope.entering i).generate i = .ok (code, scope)) :
    w.emit i = ⟨⟨scope, w.sink.extend (code.map .code), w.annotate⟩, none⟩ :=
  (Writer.sends_of_ok generated).outcome_of_taken (Sink.put_of_unlimited w.sink unlimited _)

theorem bootstrap_succeeded {w : Writer} (unlimited : w.sink.room? = none) :
    w.bootstrap =
      ⟨⟨w.scope.bootstrap.2, w.sink.extend (w.scope.bootstrap.1.map .code), w.annotate⟩, none⟩ :=
  (Writing.sends_bootstrap w.scope).outcome_of_taken (Sink.put_of_unlimited w.sink unlimited _)

theorem Sink.legal_extend {s : Sink} {lines : List Line}
    (old : ∀ line ∈ s.lines.toList, line.Legal) (new : ∀ line ∈ lines, line.Legal) :
    ∀ line ∈ (s.extend lines).lines.toList, line.Legal := by
  rw [Sink.extend, Array.toList_append, List.forall_mem_append]
  exact ⟨old, new⟩

theorem Sink.extend_extend (s : Sink) (first second : List Line) :
    (s.extend first).extend second = s.extend (first ++ second) := by
  simp [Sink.extend]

/-- A command that is written has code, and nothing but its lines and the scope change. -/
theorem command_succeeded {w : Writer} {i : Vm.Instruction} (unlimited : w.sink.room? = none)
    (succeeded : (w.command i).failure? = none) :
    ∃ code scope, (w.scope.entering i).generate i = .ok (code, scope) ∧
      (w.command i).writer =
        ⟨scope, w.sink.extend (commandLines w.annotate i code), w.annotate⟩ := by
  have commented : w.put (if w.annotate then [.comment i] else []) =
      ⟨⟨w.scope, w.sink.extend (if w.annotate then [.comment i] else []), w.annotate⟩, none⟩ :=
    put_succeeded unlimited _
  rw [Writer.command, commented] at succeeded ⊢
  simp only [Outcome.andThen] at succeeded ⊢
  cases generated : (w.scope.entering i).generate i with
  | error e =>
    rw [Writer.emit_of_error (by exact generated)] at succeeded
    contradiction
  | ok result =>
    obtain ⟨code, scope⟩ := result
    refine ⟨code, scope, rfl, ?_⟩
    rw [emit_succeeded (by exact unlimited) (by exact generated)]
    simp only [Sink.extend_extend, commandLines]

def enteredAfter (function? : Option String) (commands : List (String × Vm.Instruction)) :
    Option String :=
  commands.foldl (fun function? command => entered function? command.2) function?

theorem locate_append (function? : Option String) (first second : List (String × Vm.Instruction)) :
    locate function? (first ++ second) =
      locate function? first ++ locate (enteredAfter function? first) second := by
  induction first generalizing function? with
  | nil => rfl
  | cons command rest ih => simp [locate, ih, enteredAfter]

/-- The code of a command, for some next label number. -/
def Generates (command : Located) (code : List Instruction) : Prop :=
  ∃ label, CodeOf label command.file command.scope command.instruction code

/-- The lines of several commands. -/
def listing (annotate : Bool) (commands : List Located) (codes : List (List Instruction)) :
    List Line :=
  (List.zipWith (fun command => commandLines annotate command.instruction) commands codes).flatten

/-- What a writer has done when it has written commands. -/
structure Wrote (w : Writer) (commands : List (String × Vm.Instruction))
    (codes : List (List Instruction)) (next : Writer) : Prop where
  generates : List.Forall₂ Generates (locate w.scope.function? commands) codes
  sink : next.sink = w.sink.extend (listing w.annotate (locate w.scope.function? commands) codes)
  annotate : next.annotate = w.annotate
  function : next.scope.function? = enteredAfter w.scope.function? commands

theorem Wrote.nil (w : Writer) : Wrote w [] [] w :=
  ⟨.nil, by simp [Sink.extend, listing], rfl, rfl⟩

theorem Wrote.append {w between next : Writer} {first second : List (String × Vm.Instruction)}
    {before after : List (List Instruction)} (wrote : Wrote w first before between)
    (later : Wrote between second after next) :
    Wrote w (first ++ second) (before ++ after) next := by
  obtain ⟨generates, sink, annotate, function⟩ := later
  rw [wrote.function] at generates sink function
  refine ⟨?_, ?_, annotate.trans wrote.annotate, ?_⟩
  · rw [locate_append]
    exact List.rel_append wrote.generates generates
  · rw [sink, wrote.sink, Sink.extend_extend, wrote.annotate, locate_append, listing, listing,
      listing, List.zipWith_append wrote.generates.length_eq, List.flatten_append]
  · rw [function, enteredAfter, enteredAfter, enteredAfter, List.foldl_append]

theorem andThen_succeeded {o : Outcome} {next : Writer → Outcome}
    (succeeded : (o.andThen next).failure? = none) :
    o.failure? = none ∧ o.andThen next = next o.writer := by
  cases failure : o.failure? with
  | none => exact ⟨rfl, by rw [Outcome.andThen, failure]⟩
  | some e =>
    rw [Outcome.andThen, failure] at succeeded
    exact absurd (failure.symm.trans succeeded) (by simp)

theorem foldl_andThen (step : α → Writer → Outcome) (items : List α) (o : Outcome) :
    items.foldl (fun o item => o.andThen (step item)) o =
      o.andThen fun w => items.foldl (fun o item => o.andThen (step item)) ⟨w, none⟩ := by
  obtain ⟨w, failure | e⟩ := o
  · rfl
  · induction items with
    | nil => rfl
    | cons item rest ih => exact ih

theorem wrote_command {w : Writer} {i : Vm.Instruction} (unlimited : w.sink.room? = none)
    (succeeded : (w.command i).failure? = none) :
    (∃ code, Wrote w [(w.scope.fileName, i)] [code] (w.command i).writer) ∧
      (w.command i).writer.scope.fileName = w.scope.fileName := by
  obtain ⟨code, scope, generated, writer⟩ := command_succeeded unlimited succeeded
  obtain ⟨file, function⟩ := generate_scope generated
  have entering : (w.scope.entering i).fileName = w.scope.fileName ∧
      (w.scope.entering i).function? = entered w.scope.function? i := by
    cases i <;> exact ⟨rfl, rfl⟩
  have name : (w.scope.entering i).name = (entered w.scope.function? i).getD w.scope.fileName := by
    rw [Scope.name, entering.1, entering.2]
  rw [writer]
  refine ⟨⟨code, .cons ⟨(w.scope.entering i).nextLabel, ?_⟩ .nil, ?_, rfl, ?_⟩,
    file.trans entering.1⟩
  · exact name ▸ entering.1 ▸ codeOf_generate generated
  · simp [listing, locate]
  · exact function.trans entering.2

theorem Wrote.unlimited {w next : Writer} {commands : List (String × Vm.Instruction)}
    {codes : List (List Instruction)} (wrote : Wrote w commands codes next)
    (unlimited : w.sink.room? = none) : next.sink.room? = none := by
  rw [wrote.sink]
  exact unlimited

theorem wrote_commands {w : Writer} {instructions : List Vm.Instruction}
    (unlimited : w.sink.room? = none) (succeeded : (w.commands instructions).failure? = none) :
    ∃ codes, Wrote w (instructions.map (w.scope.fileName, ·)) codes
      (w.commands instructions).writer := by
  induction instructions generalizing w with
  | nil => exact ⟨[], .nil w⟩
  | cons i rest ih =>
    rw [Writer.commands, List.foldl_cons, foldl_andThen (fun i w => w.command i)] at succeeded ⊢
    obtain ⟨first, rest⟩ := andThen_succeeded succeeded
    rw [rest] at succeeded ⊢
    obtain ⟨⟨code, one⟩, file⟩ := wrote_command unlimited first
    obtain ⟨codes, later⟩ := ih (one.unlimited unlimited) succeeded
    rw [file] at later
    exact ⟨code :: codes, one.append later⟩

/-- Writes units, each a name and a source, one after the other. -/
def Writer.units (w : Writer) (units : List (String × String)) : Outcome :=
  units.foldl (fun o unit => o.andThen fun w => (w.setFileName unit.1).unit unit.2) ⟨w, none⟩

/-- The commands of units, each with the name of its unit. -/
def commandsOf (units : List (String × String)) : List (String × Vm.Instruction) :=
  units.flatMap fun unit => (unitInstructions unit.2).done.map (unit.1, ·)

theorem wrote_unit {w : Writer} {source : String} (unlimited : w.sink.room? = none)
    (succeeded : (w.unit source).failure? = none) :
    ∃ codes, Wrote w ((unitInstructions source).done.map (w.scope.fileName, ·)) codes
      (w.unit source).writer := by
  obtain ⟨written, last⟩ := andThen_succeeded succeeded
  obtain ⟨codes, wrote⟩ := wrote_commands unlimited written
  exact ⟨codes, by rw [Writer.unit, last]; exact wrote⟩

theorem wrote_units {w : Writer} {units : List (String × String)}
    (unlimited : w.sink.room? = none) (succeeded : (w.units units).failure? = none) :
    ∃ codes, Wrote w (commandsOf units) codes (w.units units).writer := by
  induction units generalizing w with
  | nil => exact ⟨[], .nil w⟩
  | cons unit rest ih =>
    rw [Writer.units, List.foldl_cons,
      foldl_andThen (fun (unit : String × String) w => (w.setFileName unit.1).unit unit.2)]
      at succeeded ⊢
    obtain ⟨first, next⟩ := andThen_succeeded succeeded
    rw [next] at succeeded ⊢
    obtain ⟨before, one⟩ := wrote_unit (w := w.setFileName unit.1) unlimited first
    obtain ⟨after, later⟩ := ih (one.unlimited unlimited) succeeded
    have whole := one.append later
    exact ⟨before ++ after, whole.generates, whole.sink, whole.annotate, whole.function⟩

/-- The work of one writer on a program, with or without the code that starts it. -/
def translation (bootstrap annotate : Bool) (units : List (String × String)) : Outcome :=
  let w := Writer.new .unlimited annotate
  (if bootstrap then w.bootstrap else ⟨w, none⟩).andThen (·.units units)

/-- What is written before the first unit. -/
def prologue (bootstrap : Bool) : List Instruction :=
  if bootstrap then start 0 else []

/-- The commands of a program with their places. -/
def located (units : List (String × String)) : List Located :=
  locate none (commandsOf units)

/-- Names that can stand in assembly. -/
structure LegalPlace (command : Located) : Prop where
  file : Vm.isSymbol command.file
  scope : Vm.isSymbol command.scope
  named : command.instruction.Named

theorem legal_locate {function? : Option String} {commands : List (String × Vm.Instruction)}
    (current : ∀ name ∈ function?, Vm.isSymbol name)
    (legal : ∀ command ∈ commands, Vm.isSymbol command.1 ∧ command.2.Named) :
    ∀ command ∈ locate function? commands, LegalPlace command := by
  induction commands generalizing function? with
  | nil => simp [locate]
  | cons command rest ih =>
    obtain ⟨file, i⟩ := command
    obtain ⟨⟨symbol, named⟩, rest⟩ := List.forall_mem_cons.mp legal
    have next : ∀ name ∈ entered function? i, Vm.isSymbol name := by
      cases i with
      | function name locals =>
        rintro _ ⟨⟩
        exact named
      | _ => exact current
    refine List.forall_mem_cons.mpr ⟨⟨symbol, ?_, named⟩, ih next rest⟩
    show Vm.isSymbol ((entered function? i).getD file)
    cases function : entered function? i with
    | none => exact symbol
    | some name => exact next name function

theorem legal_located {units : List (String × String)}
    (names : ∀ unit ∈ units, Vm.isSymbol unit.1) :
    ∀ command ∈ located units, LegalPlace command := by
  apply legal_locate (by simp)
  intro command member
  obtain ⟨unit, given, member⟩ := List.mem_flatMap.mp member
  obtain ⟨i, done, rfl⟩ := List.mem_map.mp member
  exact ⟨names unit given, named_unitInstructions unit.2 i done⟩

theorem Generates.wellFormed {command : Located} {code : List Instruction}
    (generates : Generates command code) (legal : LegalPlace command) : WellFormed code := by
  obtain ⟨label, generated⟩ := generates
  exact generated.wellFormed legal.named (isSymbolText_of_isSymbol legal.file).2
    (isSymbolText_of_isSymbol legal.scope).2

theorem WellFormed.start (label : Nat) : WellFormed (start label) := by
  have entry : Assembly.IsSymbolText entryFunction := isSymbolText_of_isSymbol (by decide)
  exact .append (.append (.addressed (isSymbolText_repr stackBase) toD none (by decide))
    (.storeD (isSymbolText_sp))) (.call label entry 0)

theorem WellFormed.prologue (bootstrap : Bool) : WellFormed (prologue bootstrap) := by
  cases bootstrap with
  | false => exact .nil
  | true => exact .start 0

theorem code_map (code : List Instruction) :
    (code.map Line.code).filterMap Line.instruction? = code := by
  simp [List.filterMap_map, Function.comp_def, Line.instruction?]

theorem code_listing (annotate : Bool) {commands : List Located} {codes : List (List Instruction)}
    (generates : List.Forall₂ Generates commands codes) :
    (listing annotate commands codes).filterMap Line.instruction? = codes.flatten := by
  induction generates with
  | nil => rfl
  | @cons command first commands codes _ _ ih =>
    rw [listing] at ih ⊢
    rw [List.zipWith_cons_cons, List.flatten_cons, List.filterMap_append, ih, commandLines,
      List.filterMap_append, code_map, List.flatten_cons]
    cases annotate <;> rfl

theorem legal_listing (annotate : Bool) {commands : List Located}
    {codes : List (List Instruction)} (generates : List.Forall₂ Generates commands codes)
    (legal : ∀ command ∈ commands, LegalPlace command) :
    ∀ line ∈ listing annotate commands codes, line.Legal := by
  induction generates with
  | nil => simp [listing]
  | @cons command code commands codes generates _ ih =>
    obtain ⟨first, rest⟩ := List.forall_mem_cons.mp legal
    rw [listing, List.zipWith_cons_cons, List.flatten_cons, List.forall_mem_append, commandLines,
      List.forall_mem_append, List.forall_mem_map]
    refine ⟨⟨?_, (generates.wellFormed first).legal⟩, ih rest⟩
    cases annotate with
    | false => simp
    | true => exact List.forall_mem_singleton.mpr first.named

/-- A translation that succeeds is read back as its code, command after command. -/
theorem exists_codes {bootstrap annotate : Bool} {units : List (String × String)}
    (names : ∀ unit ∈ units, Vm.isSymbol unit.1)
    (succeeded : (translation bootstrap annotate units).failure? = none) :
    ∃ codes, List.Forall₂ Generates (located units) codes ∧
      Assembly.parse (characters (translation bootstrap annotate units).writer.sink.bytes) =
        .ok (prologue bootstrap ++ codes.flatten) := by
  obtain ⟨w, begun, lines, function, annotated⟩ :
      ∃ w : Writer, (if bootstrap then (Writer.new .unlimited annotate).bootstrap
        else ⟨.new .unlimited annotate, none⟩) = ⟨w, none⟩ ∧
        w.sink = Sink.unlimited.extend ((prologue bootstrap).map .code) ∧
        w.scope.function? = none ∧ w.annotate = annotate := by
    cases bootstrap with
    | false => exact ⟨_, rfl, by simp [Sink.extend, prologue, Writer.new], rfl, rfl⟩
    | true =>
      have begun := bootstrap_succeeded (w := .new .unlimited annotate) rfl
      exact ⟨_, begun, rfl, rfl, rfl⟩
  rw [translation, begun] at succeeded ⊢
  obtain ⟨codes, wrote⟩ := wrote_units (by rw [lines]; rfl) succeeded
  obtain ⟨generates, sink, _, _⟩ := wrote
  rw [function] at sink generates
  rw [lines, Sink.extend_extend] at sink
  have written : (w.units units).writer.sink.lines.toList =
      (prologue bootstrap).map .code ++ listing w.annotate (located units) codes := by
    rw [sink]
    simp [Sink.extend, Sink.unlimited, Sink.empty, located]
  have legal : ∀ line ∈ (w.units units).writer.sink.lines.toList, line.Legal := by
    rw [written, List.forall_mem_append, List.forall_mem_map]
    exact ⟨(WellFormed.prologue bootstrap).legal,
      legal_listing w.annotate generates (legal_located names)⟩
  refine ⟨codes, generates, (Sink.parse_bytes (by rw [sink]; rfl) legal).trans ?_⟩
  rw [Sink.code, written, List.filterMap_append, code_map, located, code_listing _ generates]

end HackToolchain.Codegen
