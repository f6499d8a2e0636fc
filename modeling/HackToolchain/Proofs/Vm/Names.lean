import Mathlib
import HackToolchain.Codegen.Writer

/-! Names that have been read are symbols, so code can be written with them. -/
namespace HackToolchain.Vm

/-- Whether the name of a command is one that the program chose. -/
def CommandKind.naming : CommandKind → Bool
  | .label | .goto | .ifGoto | .function | .call => true
  | _ => false

def Command.Named (c : Command) : Prop :=
  ∀ name, c.name? = some name → c.kind.naming → isSymbol name

def Instruction.Named : Instruction → Prop
  | .label name | .goto name | .ifGoto name | .function name _ | .call name _ => isSymbol name
  | _ => True

theorem isDigit_of_isIdentifierStart {c : Char} (start : isIdentifierStart c) :
    c.isDigit = false := by
  simp only [isIdentifierStart, Char.isAlpha, Char.isUpper, Char.isLower, Bool.or_eq_true,
    Bool.and_eq_true, decide_eq_true_eq, ge_iff_le] at start
  rcases start with ((((⟨first, _⟩ | ⟨first, _⟩) | rfl) | rfl) | rfl)
  · simp [Char.isDigit, UInt32.lt_of_lt_of_le (by decide : (57 : UInt32) < 65) first]
  · simp [Char.isDigit, UInt32.lt_of_lt_of_le (by decide : (57 : UInt32) < 97) first]
  all_goals decide

namespace CommandReader

theorem bind_eq_ok {r : CommandReader α} {next : α → CommandReader β} {s after : TokenStream}
    {b : β}
    (read : (r >>= next) s = .ok b after) :
    ∃ a between, r s = .ok a between ∧ next a between = .ok b after := by
  simp only [bind, EStateM.bind] at read
  cases first : r s with
  | error e between => simp [first] at read
  | ok a between =>
    rw [first] at read
    exact ⟨a, between, rfl, read⟩

theorem isSymbol_of_symbol {line : Nat} {keyword name : String} {s after : TokenStream}
    (read : symbol line keyword s = .ok name after) : isSymbol name := by
  obtain ⟨token, between, _, read⟩ := bind_eq_ok read
  split at read
  · cases read
    assumption
  · contradiction

theorem named_arguments {line : Nat} {keyword : String} {kind : CommandKind} {c : Command}
    {s after : TokenStream} (read : arguments line keyword kind s = .ok c after) : c.Named := by
  cases kind with
  | arithmetic | «return» | erroneous =>
    cases read
    rintro _ _ ⟨⟩
  | push | pop =>
    obtain ⟨name, between, _, read⟩ := bind_eq_ok read
    obtain ⟨count, between, _, read⟩ := bind_eq_ok read
    cases read
    rintro _ _ ⟨⟩
  | label | goto | ifGoto =>
    obtain ⟨name, between, symbolic, read⟩ := bind_eq_ok read
    cases read
    rintro _ ⟨⟩ _
    exact isSymbol_of_symbol symbolic
  | function | call =>
    obtain ⟨name, between, symbolic, read⟩ := bind_eq_ok read
    obtain ⟨count, between, _, read⟩ := bind_eq_ok read
    cases read
    rintro _ ⟨⟩ _
    exact isSymbol_of_symbol symbolic

theorem named_command {c : Command} {s after : TokenStream} (read : command s = .ok c after) :
    c.Named := by
  simp only [command] at read
  split at read
  · exact named_arguments read
  · contradiction

end CommandReader

/-- Every command that a unit is read as has symbols for names. -/
theorem TokenStream.named_readingsAfter (before : List Reading) (s : TokenStream)
    (named : ∀ reading ∈ before, ∀ c, reading.result = .ok c → c.Named) :
    ∀ reading ∈ readingsAfter before s, ∀ c, reading.result = .ok c → c.Named := by
  induction before, s using readingsAfter.induct with
  | case1 before s none =>
    rw [readingsAfter, if_pos none]
    intro reading member
    exact named reading (List.mem_reverse.mp member)
  | case2 before s more ih =>
    rw [readingsAfter, if_neg more]
    apply ih (List.forall_mem_cons.mpr ⟨?_, named⟩)
    intro c result
    simp only [read] at result
    split at result
    · rename_i command rest found
      exact Except.ok.inj result ▸ CommandReader.named_command found
    · contradiction

theorem Command.named_toInstruction {c : Command} {i : Instruction} (named : c.Named)
    (typed : c.toInstruction = .ok i) : i.Named := by
  obtain ⟨kind, name?, count?⟩ := c
  cases kind with
  | arithmetic | push | pop | «return» | erroneous =>
    simp only [toInstruction, bind, Except.bind, pure, Except.pure] at typed
    repeat' split at typed
    all_goals first
      | contradiction
      | exact Except.ok.inj typed ▸ trivial
  | label | goto | ifGoto =>
    cases name? with
    | none => contradiction
    | some name =>
      cases typed
      exact named name rfl rfl
  | function | call =>
    cases name? with
    | none => contradiction
    | some name =>
      cases count? with
      | none => contradiction
      | some count =>
        cases typed
        exact named name rfl rfl

end HackToolchain.Vm

namespace HackToolchain.Codegen

theorem mem_ofResults_done {results : List (Except ε α)} {value : α}
    (member : value ∈ (Progress.ofResults results).done) : .ok value ∈ results := by
  have split := Progress.ofResults_split results
  have mapped : (.ok value : Except ε α) ∈ (Progress.ofResults results).done.map .ok :=
    List.mem_map_of_mem member
  split at split
  · exact split ▸ mapped
  · obtain ⟨later, split⟩ := split
    rw [split]
    exact List.mem_append_left _ mapped

theorem named_unitInstructions (source : String) :
    ∀ i ∈ (unitInstructions source).done, i.Named := by
  intro i member
  unfold unitInstructions at member
  split at member
  · contradiction
  · rename_i tokens _
    obtain ⟨reading, read, typed⟩ := List.mem_map.mp (mem_ofResults_done member)
    have named := Vm.TokenStream.named_readingsAfter [] tokens (by simp) reading read
    unfold ofReading at typed
    split at typed
    · contradiction
    · rename_i command result
      refine Vm.Command.named_toInstruction (named command result) ?_
      cases converted : command.toInstruction with
      | error e => simp [converted, Except.mapError] at typed
      | ok other => simpa [converted, Except.mapError] using typed

end HackToolchain.Codegen
