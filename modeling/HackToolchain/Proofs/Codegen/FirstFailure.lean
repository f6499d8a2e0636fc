import HackToolchain.Proofs.Codegen.Joining

/-! A unit stops at its first error. The commands before it are translated as if nothing stood behind
them, and nothing behind it leaves a trace; only a character outside every token stops the unit before
its first command. -/
namespace HackToolchain.Codegen

open Assembly (Instruction)
open Vm (Reading)

/-- What becomes of a command: its code and the scope after it, or the error of reading it, of typing
it or of writing code for it. -/
def Scope.translate (s : Scope) (reading : Reading) : Except Vm.Error (List Instruction × Scope) :=
  match ofReading reading with
  | .error e => .error e
  | .ok i => ((s.entering i).generate i).mapError .code

/-- Commands one after the other, each with code in the scope that those before it leave. -/
inductive Translated : Scope → List Reading → List (List Instruction) → Scope → Prop
  | nil (s : Scope) : Translated s [] [] s
  | cons {s between after : Scope} {reading : Reading} {rest : List Reading}
      {code : List Instruction} {codes : List (List Instruction)}
      (first : s.translate reading = .ok (code, between))
      (later : Translated between rest codes after) :
      Translated s (reading :: rest) (code :: codes) after

theorem andThen_assoc (o : Outcome) (first second : Writer → Outcome) :
    (o.andThen first).andThen second = o.andThen fun w => (first w).andThen second := by
  obtain ⟨w, _ | e⟩ := o <;> rfl

namespace Writer

/-- Takes commands one by one: the code of each is written before the next is looked at. -/
def oneByOne (w : Writer) : List Reading → Outcome
  | [] => ⟨w, none⟩
  | reading :: rest =>
    match ofReading reading with
    | .error e => ⟨w, some e⟩
    | .ok i => (w.command i).andThen (·.oneByOne rest)

theorem oneByOne_eq (w : Writer) (readings : List Reading) :
    w.oneByOne readings =
      let progress := Progress.ofResults (readings.map ofReading)
      (w.commands progress.done).andThen fun w => ⟨w, progress.failure?⟩ := by
  induction readings generalizing w with
  | nil => rfl
  | cons reading rest ih =>
    rw [oneByOne, List.map_cons]
    cases ofReading reading with
    | error e => rfl
    | ok i =>
      simp only [Progress.ofResults_ok_cons, commands_cons, andThen_assoc, ih]

/-- It makes no difference that all commands of a unit are read before any is written. -/
theorem unit_eq_oneByOne {source : String} {s : Vm.TokenStream}
    (tokenized : Vm.tokenize source = .ok s) (w : Writer) :
    w.unit source = w.oneByOne s.readings := by
  rw [unit, unitInstructions, tokenized, oneByOne_eq]

end Writer

/-- The bytes of code, each instruction on a line of its own. -/
def codeBytes (code : List Instruction) : ByteArray :=
  (String.join (code.map fun i => i.text ++ "\n")).toUTF8

@[simp] theorem codeBytes_nil : codeBytes [] = .empty :=
  rfl

theorem codeBytes_append (first second : List Instruction) :
    codeBytes (first ++ second) = codeBytes first ++ codeBytes second := by
  rw [codeBytes, List.map_append, String.join_append]
  exact String.toByteArray_append

namespace Sink

variable {s s' : Sink}

theorem putLine_taken {line : Line} (taken : s.putLine line = (s', true)) :
    s'.lines = s.lines.push line ∧ s'.cut = s.cut := by
  rw [putLine] at taken
  split at taken
  · obtain ⟨rfl, _⟩ := Prod.mk.inj taken
    exact ⟨rfl, rfl⟩
  · dsimp only at taken
    split at taken
    · obtain ⟨rfl, _⟩ := Prod.mk.inj taken
      exact ⟨rfl, rfl⟩
    · exact absurd (Prod.mk.inj taken).2 Bool.false_ne_true

/-- A stream that takes lines, limited or not, has them behind those that it had before. -/
theorem put_taken {lines : List Line} (taken : s.put lines = (s', true)) :
    s'.lines = (s.extend lines).lines ∧ s'.cut = s.cut := by
  induction lines generalizing s with
  | nil =>
    obtain ⟨rfl, _⟩ := Prod.mk.inj taken
    rw [Writer.extend_nil]
    exact ⟨rfl, rfl⟩
  | cons line rest ih =>
    rw [put] at taken
    split at taken
    · rename_i next first
      obtain ⟨pushed, kept⟩ := putLine_taken first
      obtain ⟨lines, cut⟩ := ih taken
      rw [lines, cut, kept]
      simp [extend, pushed]
    · exact absurd (Prod.mk.inj taken).2 Bool.false_ne_true

theorem bytes_extend (whole : s.cut = .empty) (lines : List Line) :
    (s.extend lines).bytes = s.bytes ++ (String.join (lines.map Line.text)).toUTF8 := by
  rw [bytes, bytes, text_extend, extend, whole, ByteArray.append_empty, ByteArray.append_empty]
  exact String.toByteArray_append

theorem bytes_taken {code : List Instruction} (whole : s.cut = .empty)
    (taken : s.put (code.map .code) = (s', true)) :
    s'.cut = .empty ∧ s'.bytes = s.bytes ++ codeBytes code := by
  obtain ⟨all, cut⟩ := put_taken taken
  have lines : (code.map Line.code).map Line.text = code.map fun i => i.text ++ "\n" := by
    rw [List.map_map]
    refine List.map_congr_left fun i _ => ?_
    simp [Line.text, Line.pieces, Instruction.text, String.join_append]
  have same : s'.bytes = (s.extend (code.map .code)).bytes := by
    rw [bytes, bytes, text, text, all, cut]
    rfl
  refine ⟨cut.trans whole, ?_⟩
  rw [same, bytes_extend whole, lines]
  rfl

end Sink

namespace Writer

variable {w : Writer}

theorem command_silent (silent : w.annotate = false) (i : Vm.Instruction) :
    w.command i = w.emit i := by
  obtain ⟨scope, sink, annotate⟩ := w
  obtain rfl : annotate = false := silent
  rfl

theorem exists_generated {s after : Scope} {reading : Reading} {code : List Instruction}
    (coded : s.translate reading = .ok (code, after)) :
    ∃ i, ofReading reading = .ok i ∧ (s.entering i).generate i = .ok (code, after) := by
  rw [Scope.translate] at coded
  cases typed : ofReading reading with
  | error e => simp [typed] at coded
  | ok i =>
    refine ⟨i, rfl, ?_⟩
    simp only [typed] at coded
    cases generated : (s.entering i).generate i with
    | error e => simp [generated, Except.mapError] at coded
    | ok result => simpa [generated, Except.mapError] using coded

/-- The next commands are looked at if the stream takes the code of this one. -/
theorem oneByOne_taken {reading : Reading} {code : List Instruction} {after : Scope} {sink : Sink}
    (silent : w.annotate = false) (coded : w.scope.translate reading = .ok (code, after))
    (taken : w.sink.put (code.map .code) = (sink, true)) (rest : List Reading) :
    w.oneByOne (reading :: rest) = (⟨after, sink, w.annotate⟩ : Writer).oneByOne rest := by
  obtain ⟨i, typed, generated⟩ := exists_generated coded
  simp only [oneByOne, typed, command_silent silent]
  rw [emit, (sends_of_ok generated).outcome_of_taken taken]
  rfl

theorem oneByOne_cut {reading : Reading} {code : List Instruction} {after : Scope} {sink : Sink}
    (silent : w.annotate = false) (coded : w.scope.translate reading = .ok (code, after))
    (cut : w.sink.put (code.map .code) = (sink, false)) (rest : List Reading) :
    (w.oneByOne (reading :: rest)).failure? = some (.write .sinkFull) := by
  obtain ⟨i, typed, generated⟩ := exists_generated coded
  obtain ⟨between, failed⟩ := (sends_of_ok generated).outcome_of_cut cut
  simp only [oneByOne, typed, command_silent silent]
  rw [emit, failed]
  rfl

/-- Nothing is written for a command that fails, whatever is wrong with it. -/
theorem oneByOne_failed {reading : Reading} {e : Vm.Error} (silent : w.annotate = false)
    (failed : w.scope.translate reading = .error e) (rest : List Reading) :
    (w.oneByOne (reading :: rest)).failure? = some e ∧
      (w.oneByOne (reading :: rest)).writer.sink = w.sink := by
  rw [oneByOne]
  rw [Scope.translate] at failed
  cases typed : ofReading reading with
  | error fault =>
    simp only [typed] at failed
    exact ⟨congrArg some (Except.error.inj failed), rfl⟩
  | ok i =>
    simp only [typed] at failed ⊢
    rw [command_silent silent]
    cases generated : (w.scope.entering i).generate i with
    | error fault =>
      obtain rfl : Vm.Error.code fault = e := by simpa [generated, Except.mapError] using failed
      rw [emit_of_error generated]
      exact ⟨rfl, rfl⟩
    | ok result => simp [generated, Except.mapError] at failed

/-- Unless a stream gets full, commands come to the code of all of them, or to that of those before the
first without. -/
theorem oneByOne_translates (silent : w.annotate = false) (whole : w.sink.cut = .empty)
    (readings : List Reading) (taken : ∀ e, (w.oneByOne readings).failure? ≠ some (.write e)) :
    (∃ codes after, Translated w.scope readings codes after ∧
      (w.oneByOne readings).failure? = none ∧
      (w.oneByOne readings).writer.sink.bytes = w.sink.bytes ++ codeBytes codes.flatten) ∨
    ∃ before reading later codes between e, readings = before ++ reading :: later ∧
      Translated w.scope before codes between ∧ between.translate reading = .error e ∧
      (w.oneByOne readings).failure? = some e ∧
      (w.oneByOne readings).writer.sink.bytes = w.sink.bytes ++ codeBytes codes.flatten := by
  induction readings generalizing w with
  | nil => exact .inl ⟨[], w.scope, .nil _, rfl, by simp [oneByOne]⟩
  | cons reading rest ih =>
    cases first : w.scope.translate reading with
    | error e =>
      obtain ⟨error, kept⟩ := oneByOne_failed silent first rest
      exact .inr ⟨[], reading, rest, [], w.scope, e, rfl, .nil _, first, error, by simp [kept]⟩
    | ok result =>
      obtain ⟨code, next⟩ := result
      cases put : w.sink.put (code.map .code) with
      | mk sink fits =>
        cases fits with
        | false => exact absurd (oneByOne_cut silent first put rest) (taken .sinkFull)
        | true =>
          rw [oneByOne_taken silent first put] at taken ⊢
          obtain ⟨whole', bytes⟩ := Sink.bytes_taken whole put
          have more (codes : List (List Instruction)) : sink.bytes ++ codeBytes codes.flatten =
              w.sink.bytes ++ codeBytes (code :: codes).flatten := by
            rw [bytes, List.flatten_cons, codeBytes_append, ByteArray.append_assoc]
          rcases ih (w := ⟨next, sink, w.annotate⟩) silent whole' taken with
            ⟨codes, after, later, none, written⟩ |
            ⟨before, bad, later, codes, between, e, rfl, fine, failed, error, written⟩
          · exact .inl ⟨code :: codes, after, .cons first later, none, written.trans (more codes)⟩
          · exact .inr ⟨reading :: before, bad, later, code :: codes, between, e, rfl,
              .cons first fine, failed, error, written.trans (more codes)⟩

end Writer

/-- A unit is rejected for a character outside every token before anything happens. Otherwise, on a
stream that does not fail, each command has code, and what is written is the code of all; or there is
a first command without, and its error is the unit's, and what is written is the code of the commands
before it. -/
theorem unit_first_failure {w : Writer} (silent : w.annotate = false) (whole : w.sink.cut = .empty)
    (source : String) (taken : ∀ e, (w.unit source).failure? ≠ some (.write e)) :
    match Vm.tokenize source with
    | .error e => w.unit source = ⟨w, some (.lex e)⟩
    | .ok s =>
      (∃ codes after, Translated w.scope s.readings codes after ∧
        (w.unit source).failure? = none ∧
        (w.unit source).writer.sink.bytes = w.sink.bytes ++ codeBytes codes.flatten) ∨
      ∃ before reading later codes between e, s.readings = before ++ reading :: later ∧
        Translated w.scope before codes between ∧ between.translate reading = .error e ∧
        (w.unit source).failure? = some e ∧
        (w.unit source).writer.sink.bytes = w.sink.bytes ++ codeBytes codes.flatten := by
  cases tokenized : Vm.tokenize source with
  | error e =>
    rw [Writer.unit, unitInstructions, tokenized]
    rfl
  | ok s =>
    rw [Writer.unit_eq_oneByOne tokenized] at taken
    dsimp only
    rw [Writer.unit_eq_oneByOne tokenized]
    exact Writer.oneByOne_translates silent whole s.readings taken

/-- The last command is not even well-formed, and still the error is that of the one before. The stream
has room for the code of the first command only, and does not fail. -/
theorem unit_first_failure_pop :
    let w := (Writer.new (.empty (some 14)) false).setFileName "Main"
    let o := w.unit "goto L\npop constant 0\npush"
    ∃ s before reading later codes between,
      Vm.tokenize "goto L\npop constant 0\npush" = .ok s ∧
      s.readings = before ++ reading :: later ∧ Translated w.scope before codes between ∧
      between.translate reading = .error (.code .popConstant) ∧
      o.failure? = some (.code .popConstant) ∧
      o.writer.sink.bytes = w.sink.bytes ++ codeBytes codes.flatten := by
  intro w o
  have tokenized : Vm.tokenize "goto L\npop constant 0\npush" = .ok ⟨[.word 1 "goto", .word 1 "L",
      .word 2 "pop", .word 2 "constant", .digits 2 "0", .word 3 "push"], 3⟩ := by decide +kernel
  have popped : o.failure? = some (.code .popConstant) := by decide +kernel
  have taken (e : Vm.WriteError) : o.failure? ≠ some (.write e) := by
    rw [popped]
    simp
  have stops := unit_first_failure (w := w) rfl rfl "goto L\npop constant 0\npush" taken
  rw [tokenized] at stops
  obtain ⟨_, _, _, none, _⟩ | ⟨before, reading, later, codes, between, e, split, fine, failed, error,
    bytes⟩ := stops
  · rw [popped] at none
    contradiction
  · obtain rfl : e = .code .popConstant := Option.some.inj (error.symm.trans popped)
    exact ⟨_, before, reading, later, codes, between, tokenized, split, fine, failed, error, bytes⟩

end HackToolchain.Codegen
