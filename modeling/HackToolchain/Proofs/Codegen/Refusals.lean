import HackToolchain.Proofs.Codegen.Labels
import HackToolchain.Proofs.Codegen.Truncation

/-! What a refused instruction leaves behind. Nothing is written for it, no number is used up and no
label is taken. Only a function is entered even if its name is taken; after any other refusal a writer
goes on as if it had not been asked. -/
namespace HackToolchain.Codegen

open Vm (CodeError)

/-- Only a function command enters a function. -/
theorem Scope.entering_of_plain {i : Vm.Instruction}
    (plain : ∀ name locals, i ≠ .function name locals) (s : Scope) : s.entering i = s := by
  cases i with
  | function name locals => exact absurd rfl (plain name locals)
  | _ => rfl

/-- There is code for a function unless its name is taken. -/
theorem generate_function_eq_error {s : Scope} {name : String} {locals : UInt16} {e : CodeError}
    (failed : s.generate (.function name locals) = .error e) : e = .duplicateLabel name := by
  rcases bind_eq_error failed with failed | ⟨after, _, failed⟩
  · by_cases taken : name ∈ s.defined
    · rw [define_of_mem taken] at failed
      exact (Except.error.inj failed).symm
    · rw [define_of_not_mem taken] at failed
      contradiction
  · contradiction

namespace Writer

/-- A writer as it can be after any calls, on a stream that takes everything. -/
def Reachable (w : Writer) : Prop :=
  ∃ annotate before, w = (Writer.new .unlimited annotate).afterCalls before

theorem Reachable.unlimited {w : Writer} (reachable : w.Reachable) : w.Unlimited := by
  obtain ⟨annotate, before, rfl⟩ := reachable
  have start : (Writer.new .unlimited annotate).Unlimited := ⟨rfl, rfl⟩
  exact start.calls before

/-- An operation fails there only if its instruction has no code. Its comment is written, and the
instruction's function is entered. -/
theorem perform_refused {w : Writer} (unlimited : w.sink.room? = none) {operation : Operation}
    {e : Vm.Error} (failed : (w.perform operation).failure? = some e) :
    ∃ i fault, operation.instruction? = some i ∧ e = .code fault ∧
      (w.scope.entering i).generate i = .error fault ∧
      (w.perform operation).writer =
        ⟨w.scope.entering i, w.sink.extend (operation.comment w.annotate), w.annotate⟩ := by
  have effect := effect_perform unlimited operation
  generalize w.perform operation = o at effect failed
  cases effect with
  | named | started | written => contradiction
  | refused given generated =>
    exact ⟨_, _, given, (Option.some.inj failed).symm, generated, rfl⟩

end Writer

open Writer (Operation)

/-- Nothing is written for an instruction that is refused, and neither the numbers nor the table of
labels nor the name of the file change. It is a function whose name is taken, which is entered still,
or nothing changes at all: whatever comes later writes the same bytes and has the same answers as
without it. -/
theorem refused_leaves_nothing {w : Writer} (reachable : w.Reachable) {operation : Operation}
    (silent : operation.comment w.annotate = []) {e : Vm.Error}
    (failed : (w.perform operation).failure? = some e) :
    let refused := (w.perform operation).writer
    (∃ fault, e = .code fault) ∧ refused.sink = w.sink ∧ refused.annotate = w.annotate ∧
      refused.scope.nextLabel = w.scope.nextLabel ∧ refused.scope.defined = w.scope.defined ∧
      refused.scope.fileName = w.scope.fileName ∧
      ((∃ name locals, operation.instruction? = some (.function name locals) ∧
          e = .code (.duplicateLabel name) ∧ refused.scope.function? = some name) ∨
        refused.scope.function? = w.scope.function? ∧
          ∀ later, (refused.afterCalls later).sink.bytes = (w.afterCalls later).sink.bytes ∧
            refused.answers later = w.answers later) := by
  intro refused
  obtain ⟨i, fault, given, rfl, generated, left⟩ :=
    Writer.perform_refused reachable.unlimited.room failed
  rw [silent, Writer.extend_nil] at left
  change refused = _ at left
  rw [left]
  by_cases entered : ∃ name locals, i = .function name locals
  · obtain ⟨name, locals, rfl⟩ := entered
    rw [generate_function_eq_error generated]
    exact ⟨⟨_, rfl⟩, rfl, rfl, rfl, rfl, rfl, .inl ⟨name, locals, given, rfl, rfl⟩⟩
  · have same : w.scope.entering i = w.scope :=
      Scope.entering_of_plain (fun name locals is => entered ⟨name, locals, is⟩) w.scope
    rw [same]
    exact ⟨⟨fault, rfl⟩, rfl, rfl, rfl, rfl, rfl, .inr ⟨rfl, fun later => ⟨rfl, rfl⟩⟩⟩

theorem refused_leaves_nothing_label :
    let w := (Writer.new .unlimited true).afterCalls
      [.perform (.setFileName "Main"), .unit "label L\neq"]
    (w.perform (.emit (.label "L"))).failure? = some (.code (.duplicateLabel "Main$L")) ∧
      ∀ later, (w.perform (.emit (.label "L"))).writer.answers later = w.answers later := by
  intro w
  have reachable : w.Reachable := ⟨true, _, rfl⟩
  have failed : (w.perform (.emit (.label "L"))).failure? =
      some (.code (.duplicateLabel "Main$L")) := by decide +kernel
  have silent : Operation.comment w.annotate (.emit (.label "L")) = [] := rfl
  obtain ⟨_, _, _, _, _, _, entered | ⟨_, same⟩⟩ := refused_leaves_nothing reachable silent failed
  · obtain ⟨name, locals, given, _⟩ := entered
    exact absurd (Option.some.inj given) nofun
  · exact ⟨failed, fun later => (same later).2⟩

end HackToolchain.Codegen
