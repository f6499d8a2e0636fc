import HackToolchain.Proofs.Codegen.Operations
import HackToolchain.Proofs.Vm.Joining
import HackToolchain.Proofs.Vm.RoundTrip

/-! Units joined by a line feed. A writer that has accepted the first unit does with the second what
it would do with it alone. -/
namespace HackToolchain

namespace Progress

theorem ofResults_ok_cons (value : α) (rest : List (Except ε α)) :
    ofResults (.ok value :: rest) =
      ⟨value :: (ofResults rest).done, (ofResults rest).failure?⟩ :=
  rfl

theorem ofResults_append (values : List α) (results : List (Except ε α)) :
    ofResults (values.map .ok ++ results) =
      ⟨values ++ (ofResults results).done, (ofResults results).failure?⟩ := by
  induction values with
  | nil => rfl
  | cons value rest ih =>
    rw [List.map_cons, List.cons_append, ofResults_ok_cons, ih, List.cons_append]

theorem ofResults_mapError (f : ε → ε') (results : List (Except ε α)) :
    ofResults (results.map (·.mapError f)) =
      ⟨(ofResults results).done, (ofResults results).failure?.map f⟩ := by
  induction results with
  | nil => rfl
  | cons result rest ih =>
    cases result with
    | error e => rfl
    | ok value =>
      rw [List.map_cons]
      exact (ofResults_ok_cons value _).trans (by rw [ih, ofResults_ok_cons])

end Progress

namespace Codegen

theorem ofReading_later (reading : Vm.Reading) (n : Nat) :
    ofReading (reading.later n) = (ofReading reading).mapError (·.later n) := by
  obtain ⟨line, e | c⟩ := reading
  · rfl
  · simp only [ofReading, Vm.Reading.later, Except.mapError]
    cases c.toInstruction <;> rfl

/-- A unit without errors is cut into tokens, and each of its commands is read. -/
theorem exists_readings {source : String} (fine : (unitInstructions source).failure? = none) :
    ∃ s, Vm.tokenize source = .ok s ∧
      s.readings.map ofReading = (unitInstructions source).done.map .ok := by
  unfold unitInstructions at fine ⊢
  cases cut : Vm.tokenize source with
  | error e => simp [cut] at fine
  | ok s =>
    simp only [cut] at fine ⊢
    have split := Progress.ofResults_split (s.readings.map ofReading)
    rw [fine] at split
    exact ⟨s, rfl, split⟩

/-- The error of the second unit is found so many lines later. -/
theorem unitInstructions_joined {first second : String} {t : Vm.TokenStream}
    (fine : (unitInstructions first).failure? = none) (cut : Vm.tokenize second = .ok t) :
    unitInstructions (first ++ "\n" ++ second) =
      ⟨(unitInstructions first).done ++ (unitInstructions second).done,
        (unitInstructions second).failure?.map (·.later (first.toList.count '\n' + 1))⟩ := by
  obtain ⟨s, cut', results⟩ := exists_readings fine
  have read : ∀ reading ∈ s.readings, ∃ c, reading.result = .ok c := by
    intro reading member
    have result : ofReading reading ∈ (unitInstructions first).done.map .ok :=
      results ▸ List.mem_map_of_mem member
    obtain ⟨i, _, yields⟩ := List.mem_map.mp result
    obtain ⟨c, found, _⟩ := Vm.Reading.yields_iff.mp yields.symm
    exact ⟨c, found⟩
  have later : t.readings.map (fun reading => ofReading (reading.later s.endLine)) =
      (t.readings.map ofReading).map (·.mapError (·.later s.endLine)) := by
    simp only [List.map_map, Function.comp_def, ofReading_later]
  have joined : unitInstructions (first ++ "\n" ++ second) =
      .ofResults ((s.join t).readings.map ofReading) := by
    rw [unitInstructions, Vm.tokenize_joined cut' cut]
  have alone : unitInstructions second = .ofResults (t.readings.map ofReading) := by
    rw [unitInstructions, cut]
  rw [joined, alone, Vm.TokenStream.readings_join read, List.map_append, List.map_map,
    Function.comp_def, later, results, Progress.ofResults_append, Progress.ofResults_mapError,
    Vm.endLine_of_tokenize cut']

/-- Printed one below the other, instructions make a unit of just these instructions. -/
theorem unitInstructions_printed {instructions : List Vm.Instruction}
    (named : ∀ i ∈ instructions, i.Named) :
    unitInstructions (Vm.printed instructions) = ⟨instructions, none⟩ := by
  obtain ⟨s, cut, yields⟩ := (Vm.readsAs_printed named).1.yields
  have results : s.readings.map ofReading = instructions.map .ok ++ [] := by
    rw [List.append_nil]
    rwa [← List.forall₂_eq_eq_eq, List.forall₂_map_left_iff, List.forall₂_map_right_iff]
  rw [unitInstructions, cut]
  dsimp only
  rw [results, Progress.ofResults_append]
  exact congrArg (Progress.mk · none) (List.append_nil instructions)

/-- The same outcome of a text that stands so many lines further down. -/
def Outcome.later (o : Outcome) (n : Nat) : Outcome :=
  ⟨o.writer, o.failure?.map (·.later n)⟩

/-- The first operation failed, or the second did. -/
theorem andThen_failed {o : Outcome} {next : Writer → Outcome} {e : Vm.Error}
    (failed : (o.andThen next).failure? = some e) :
    o.failure? = some e ∨ (next o.writer).failure? = some e := by
  unfold Outcome.andThen at failed
  split at failed
  · exact .inr failed
  · exact .inl failed

namespace Writer

variable {w : Writer} {e : Vm.Error}

theorem later_put {lines : List Line} (failed : (w.put lines).failure? = some e) (n : Nat) :
    e.later n = e := by
  cases taken : w.sink.put lines with
  | mk sink fits =>
    cases fits with
    | true =>
      rw [put_of_taken taken] at failed
      contradiction
    | false =>
      rw [put_of_cut taken] at failed
      exact Option.some.inj failed ▸ rfl

theorem later_command {i : Vm.Instruction} (failed : (w.command i).failure? = some e) (n : Nat) :
    e.later n = e := by
  rcases andThen_failed failed with commented | emitted
  · exact later_put commented n
  · obtain ⟨_, _, rfl⟩ | rfl := emit_failed emitted <;> rfl

theorem later_commands {instructions : List Vm.Instruction}
    (failed : (w.commands instructions).failure? = some e) (n : Nat) : e.later n = e := by
  induction instructions generalizing w with
  | nil => contradiction
  | cons i rest ih =>
    rw [commands_cons] at failed
    rcases andThen_failed failed with first | others
    · exact later_command first n
    · exact ih others

end Writer

/-- A writer in any state that accepts a unit takes what follows on the next line for the next unit:
it writes the same bytes, ends in the same state and fails in the same way. Only the lines of an
error are counted from the start of the joined unit. -/
theorem unit_joined {w : Writer} {first second : String} {t : Vm.TokenStream}
    (accepted : (w.unit first).failure? = none) (cut : Vm.tokenize second = .ok t) :
    w.unit (first ++ "\n" ++ second) =
      ((w.unit first).writer.unit second).later (first.toList.count '\n' + 1) := by
  obtain ⟨written, ended⟩ := andThen_succeeded accepted
  have alone : w.unit first =
      ⟨(w.commands (unitInstructions first).done).writer, (unitInstructions first).failure?⟩ :=
    ended
  have fine : (unitInstructions first).failure? = none := by rwa [alone] at accepted
  have state : w.commands (unitInstructions first).done = ⟨(w.unit first).writer, none⟩ := by
    rw [alone, ← written]
  generalize (w.unit first).writer = between at state
  rw [Writer.unit, unitInstructions_joined fine cut, Writer.commands_append, state]
  dsimp only [Outcome.andThen]
  rw [Writer.unit, Outcome.later]
  cases failure : (between.commands (unitInstructions second).done).failure? with
  | none => simp only [Outcome.andThen, failure]
  | some e =>
    simp only [Outcome.andThen, failure, Option.map_some, Writer.later_commands failure]
    rw [← failure]

/-- A comment that is open at the end of a unit does not swallow the next one. -/
theorem unit_joined_comment :
    let w := Writer.new .unlimited true
    (w.unit ("label A // goto" ++ "\n" ++ "goto A\npush")).failure? =
      some (.command (.unexpected 3 "push" .segment "end of input")) := by
  intro w
  have accepted : (w.unit "label A // goto").failure? = none := by decide +kernel
  have cut : Vm.tokenize "goto A\npush" =
      .ok ⟨[.word 1 "goto", .word 1 "A", .word 2 "push"], 2⟩ := by decide +kernel
  have failed : ((w.unit "label A // goto").writer.unit "goto A\npush").failure? =
      some (.command (.unexpected 2 "push" .segment "end of input")) := by decide +kernel
  rw [unit_joined accepted cut, Outcome.later, failed]
  rfl

end Codegen
end HackToolchain
