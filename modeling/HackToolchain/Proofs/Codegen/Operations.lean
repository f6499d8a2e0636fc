import HackToolchain.Proofs.Codegen.Statics

/-! A writer that is used on, whatever became of the operations before. On a stream that takes
everything an operation has one of a few effects; a program's translation is one run of operations up
to the first that fails. -/
namespace HackToolchain.Codegen

open Assembly (Instruction)

namespace Writer

/-- What a writer can be asked to do. -/
inductive Operation where
  | setFileName (name : String)
  | bootstrap
  | emit (i : Vm.Instruction)
  | command (i : Vm.Instruction)
  deriving DecidableEq

namespace Operation

/-- The instruction whose code an operation writes. -/
def instruction? : Operation → Option Vm.Instruction
  | .emit i | .command i => some i
  | _ => none

/-- The comment that stands above the code. -/
def comment (annotate : Bool) : Operation → List Line
  | .command i => if annotate then [.comment i] else []
  | _ => []

/-- The names in an operation can stand in assembly. -/
def Named : Operation → Prop
  | .setFileName name => Vm.isSymbol name
  | .bootstrap => True
  | .emit i | .command i => i.Named

end Operation

def perform (w : Writer) : Operation → Outcome
  | .setFileName name => ⟨w.setFileName name, none⟩
  | .bootstrap => w.bootstrap
  | .emit i => w.emit i
  | .command i => w.command i

/-- The writer after operations, each tried whether or not those before it succeeded. -/
def after (w : Writer) (operations : List Operation) : Writer :=
  operations.foldl (fun w operation => (w.perform operation).writer) w

@[simp] theorem after_nil (w : Writer) : w.after [] = w :=
  rfl

@[simp] theorem after_cons (w : Writer) (operation : Operation) (rest : List Operation) :
    w.after (operation :: rest) = (w.perform operation).writer.after rest :=
  rfl

theorem after_append (w : Writer) (first second : List Operation) :
    w.after (first ++ second) = (w.after first).after second :=
  List.foldl_append

/-- Everything that an operation can do when its lines are all taken. -/
inductive Effect (w : Writer) : Operation → Outcome → Prop
  | named (name : String) : Effect w (.setFileName name) ⟨w.setFileName name, none⟩
  | started : Effect w .bootstrap
      ⟨⟨w.scope.bootstrap.2, w.sink.extend (w.scope.bootstrap.1.map .code), w.annotate⟩, none⟩
  | written {operation : Operation} {i : Vm.Instruction} {code : List Instruction} {scope : Scope}
      (given : operation.instruction? = some i)
      (generated : (w.scope.entering i).generate i = .ok (code, scope)) :
      Effect w operation
        ⟨⟨scope, w.sink.extend (operation.comment w.annotate ++ code.map .code), w.annotate⟩, none⟩
  | refused {operation : Operation} {i : Vm.Instruction} {e : Vm.CodeError}
      (given : operation.instruction? = some i)
      (failed : (w.scope.entering i).generate i = .error e) :
      Effect w operation
        ⟨⟨w.scope.entering i, w.sink.extend (operation.comment w.annotate), w.annotate⟩,
          some (.code e)⟩

theorem extend_nil (s : Sink) : s.extend [] = s := by
  simp [Sink.extend]

theorem effect_emit {w : Writer} (unlimited : w.sink.room? = none) (i : Vm.Instruction) :
    Effect w (.emit i) (w.emit i) := by
  cases generated : (w.scope.entering i).generate i with
  | error e =>
    have refused : Effect w (.emit i)
        ⟨⟨w.scope.entering i, w.sink.extend [], w.annotate⟩, some (.code e)⟩ :=
      .refused rfl generated
    rw [extend_nil] at refused
    rwa [emit_of_error generated]
  | ok result =>
    rw [emit_succeeded unlimited generated]
    exact .written rfl generated

theorem effect_perform {w : Writer} (unlimited : w.sink.room? = none) (operation : Operation) :
    Effect w operation (w.perform operation) := by
  cases operation with
  | setFileName name => exact .named name
  | bootstrap =>
    rw [perform, bootstrap_succeeded unlimited]
    exact .started
  | emit i => exact effect_emit unlimited i
  | command i =>
    have commented : w.put (if w.annotate then [.comment i] else []) =
        ⟨⟨w.scope, w.sink.extend (Operation.comment w.annotate (.command i)), w.annotate⟩, none⟩ :=
      put_succeeded unlimited _
    rw [perform, command, commented]
    cases generated : (w.scope.entering i).generate i with
    | error e =>
      rw [Outcome.andThen, emit_of_error (by exact generated)]
      exact .refused rfl generated
    | ok result =>
      rw [Outcome.andThen, emit_succeeded (by exact unlimited) (by exact generated),
        Sink.extend_extend]
      exact .written rfl generated

theorem Effect.unlimited {w : Writer} {operation : Operation} {o : Outcome}
    (effect : Effect w operation o) (unlimited : w.sink.room? = none) :
    o.writer.sink.room? = none := by
  cases effect with
  | named | started | written | refused => simpa only [Writer.setFileName, Sink.extend]

theorem after_unlimited {w : Writer} (unlimited : w.sink.room? = none)
    (operations : List Operation) : (w.after operations).sink.room? = none := by
  induction operations generalizing w with
  | nil => exact unlimited
  | cons operation rest ih => exact ih ((effect_perform unlimited operation).unlimited unlimited)

/-- The operations of a unit, up to its first malformed command. -/
def unitOperations (unit : String × String) : List Operation :=
  .setFileName unit.1 :: (unitInstructions unit.2).done.map .command

/-- The operations of a program. -/
def programOperations (bootstrap : Bool) (units : List (String × String)) : List Operation :=
  (if bootstrap then [.bootstrap] else []) ++ units.flatMap unitOperations

/-- An operation of a run fails, each operation before it having been tried. -/
def Fails (w : Writer) (operations : List Operation) (e : Vm.Error) : Prop :=
  ∃ before operation later, operations = before ++ operation :: later ∧
    ((w.after before).perform operation).failure? = some e

theorem Fails.append_right {w : Writer} {first : List Operation} {e : Vm.Error}
    (fails : Fails w first e) (second : List Operation) : Fails w (first ++ second) e := by
  obtain ⟨before, operation, later, rfl, failed⟩ := fails
  exact ⟨before, operation, later ++ second, by simp, failed⟩

theorem Fails.append_left {w : Writer} {first second : List Operation} {e : Vm.Error}
    (fails : Fails (w.after first) second e) : Fails w (first ++ second) e := by
  obtain ⟨before, operation, later, rfl, failed⟩ := fails
  exact ⟨first ++ before, operation, later, by simp, by rwa [after_append]⟩

/-- A run that stops at a failure has done all of its operations, or an operation has no code. Units
can also end in other ways. -/
structure Stops (w : Writer) (operations : List Operation) (o : Outcome) : Prop where
  finished : o.failure? = none → o.writer = w.after operations
  failed : ∀ e, o.failure? = some (.code e) → Fails w operations (.code e)

theorem Stops.andThen {w : Writer} {first second : List Operation} {o : Outcome}
    {next : Writer → Outcome} (stops : Stops w first o)
    (later : Stops (w.after first) second (next (w.after first))) :
    Stops w (first ++ second) (o.andThen next) := by
  obtain ⟨finished, failed⟩ := stops
  cases failure : o.failure? with
  | none =>
    rw [Outcome.andThen, failure]
    dsimp only
    rw [finished failure]
    refine ⟨fun done => ?_, fun e failed => ?_⟩
    · rw [later.finished done, after_append]
    · exact (later.failed e failed).append_left
  | some fault =>
    rw [Outcome.andThen, failure]
    refine ⟨fun done => ?_, fun e same => ?_⟩
    · exact absurd (failure.symm.trans done) (by simp)
    · exact (failed e same).append_right second

theorem stops_perform (w : Writer) (operation : Operation) :
    Stops w [operation] (w.perform operation) :=
  ⟨fun _ => rfl, fun _ failed => ⟨[], operation, [], rfl, failed⟩⟩

theorem stops_nil (w : Writer) : Stops w [] ⟨w, none⟩ :=
  ⟨fun _ => rfl, fun _ failed => absurd failed (by simp)⟩

theorem commands_append (w : Writer) (first second : List Vm.Instruction) :
    w.commands (first ++ second) = (w.commands first).andThen (·.commands second) := by
  rw [commands, List.foldl_append, foldl_andThen fun i w => command w i]
  rfl

theorem commands_cons (w : Writer) (i : Vm.Instruction) (rest : List Vm.Instruction) :
    w.commands (i :: rest) = (w.command i).andThen (·.commands rest) :=
  commands_append w [i] rest

theorem units_cons (w : Writer) (unit : String × String) (rest : List (String × String)) :
    w.units (unit :: rest) = ((w.setFileName unit.1).unit unit.2).andThen (·.units rest) := by
  rw [units, List.foldl_cons,
    foldl_andThen (fun (unit : String × String) w => (w.setFileName unit.1).unit unit.2)]
  rfl

theorem stops_commands (w : Writer) (instructions : List Vm.Instruction) :
    Stops w (instructions.map .command) (w.commands instructions) := by
  induction instructions generalizing w with
  | nil => exact stops_nil w
  | cons i rest ih =>
    rw [commands_cons]
    exact (stops_perform w (.command i)).andThen (ih _)

/-- What ends a unit early is never that an instruction has no code. -/
theorem unitInstructions_failure (source : String) (e : Vm.CodeError) :
    (unitInstructions source).failure? ≠ some (.code e) := by
  unfold unitInstructions
  split
  · simp
  · rename_i tokens _
    have split := Progress.ofResults_split (tokens.readings.map ofReading)
    intro failed
    rw [failed] at split
    obtain ⟨later, split⟩ := split
    have member : .error (.code e) ∈ tokens.readings.map ofReading := by
      rw [split]
      simp
    obtain ⟨reading, _, failed⟩ := List.mem_map.mp member
    unfold ofReading at failed
    split at failed
    · simp at failed
    · rename_i command _
      cases typed : command.toInstruction <;> simp [typed, Except.mapError] at failed

theorem stops_unit (w : Writer) (unit : String × String) :
    Stops w (unitOperations unit) ((w.setFileName unit.1).unit unit.2) := by
  have named : Stops w (unitOperations unit)
      ((w.perform (.setFileName unit.1)).andThen (·.commands (unitInstructions unit.2).done)) :=
    (stops_perform w (.setFileName unit.1)).andThen (stops_commands _ _)
  have commanded : Stops w (unitOperations unit)
      ((w.setFileName unit.1).commands (unitInstructions unit.2).done) := named
  have ended : Stops (w.after (unitOperations unit)) []
      ⟨w.after (unitOperations unit), (unitInstructions unit.2).failure?⟩ :=
    ⟨fun _ => rfl, fun e failed => absurd failed (unitInstructions_failure unit.2 e)⟩
  rw [Writer.unit, ← List.append_nil (unitOperations unit)]
  exact commanded.andThen ended

theorem stops_units (w : Writer) (units : List (String × String)) :
    Stops w (units.flatMap unitOperations) (w.units units) := by
  induction units generalizing w with
  | nil => exact stops_nil w
  | cons unit rest ih =>
    rw [units_cons]
    exact (stops_unit w unit).andThen (ih _)

end Writer

/-- A translation is a run of its program's operations up to the first that fails. -/
theorem stops_translation (bootstrap annotate : Bool) (units : List (String × String)) :
    Writer.Stops (.new .unlimited annotate) (Writer.programOperations bootstrap units)
      (translation bootstrap annotate units) := by
  rw [translation, Writer.programOperations]
  refine Writer.Stops.andThen ?_ (Writer.stops_units _ units)
  cases bootstrap with
  | false => exact Writer.stops_nil _
  | true => exact Writer.stops_perform _ .bootstrap

end HackToolchain.Codegen
