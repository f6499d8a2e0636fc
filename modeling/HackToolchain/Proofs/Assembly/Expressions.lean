import HackToolchain.Proofs.Assembly.Interpreter
import HackToolchain.Proofs.Assembly.RoundTrip

/-! Which written expressions the machine computes. Every expression that can be read gets control
bits, but only some get their own: those that are documented, the same sums, conjunctions and
disjunctions with their operands turned round, and the negated zero. Many others could have control
bits of their own, being longer forms of these. -/
namespace HackToolchain.Assembly

open Machine (Word Computation Operation)

/-- The unit gives the value of an expression, whatever the registers and the addressed cell hold. -/
def Computes (c : Computation) (comp : Comp) : Prop :=
  ∀ a d m : Word, c.control.output d (if c.fromMemory then m else a) = comp.value a d m

/-- What else gets the right control bits. -/
def undocumented : List Comp := [
  .unary (some .minus) .zero,
  .binary .a .plus .d, .binary .m .plus .d, .binary .a .and .d, .binary .m .and .d,
  .binary .a .or .d, .binary .m .or .d]

/-- The expressions that the machine computes as they are written. -/
def faithful : List Comp :=
  documented ++ undocumented

theorem undocumented_output {comp : Comp} (member : comp ∈ undocumented) (a d m : Word) :
    comp.control.output d (if comp.fromMemory then m else a) = comp.value a d m := by
  revert comp
  simp only [undocumented, List.forall_mem_cons, List.not_mem_nil, false_imp_iff, implies_true,
    and_true, Comp.control, Comp.unaryControl, Comp.binaryControl, Machine.Alu.Control.output,
    Machine.Alu.prepared, Comp.fromMemory, Comp.value, Operand.value]
  refine ⟨?_, ?_, ?_, ?_, ?_, ?_, ?_⟩
  · simp
  · simp [BitVec.add_comm]
  · simp [BitVec.add_comm]
  · simp [BitVec.and_comm]
  · simp [BitVec.and_comm]
  · simp [BitVec.or_comm]
  · simp [BitVec.or_comm]

/-- Every expression that can be read. -/
def readable : List Comp :=
  ([none, some .minus, some .not].flatMap fun op => Operand.all.map (.unary op)) ++
    Operand.all.flatMap fun x => [.plus, .minus, .and, .or].flatMap fun op =>
      Operand.all.map (.binary x op)

theorem mem_readable {comp : Comp} (writable : comp.Writable) : comp ∈ readable := by
  have operand (x : Operand) : x ∈ Operand.all := by cases x <;> decide
  cases comp with
  | unary op x =>
    cases op with
    | none => simp [readable, operand]
    | some op => rcases writable with rfl | rfl <;> simp [readable, operand]
  | binary x op y =>
    cases op with
    | not => contradiction
    | plus | minus | and | or => simp [readable, operand]

/-- One choice of values tells every expression with wrong control bits from what was written. -/
theorem faithful_of_probe {comp : Comp} (writable : comp.Writable)
    (computed : comp.control.output 6 (if comp.fromMemory then 5 else 10) = comp.value 10 6 5) :
    comp ∈ faithful := by
  have probe : ∀ comp ∈ readable,
      comp.control.output 6 (if comp.fromMemory then 5 else 10) = comp.value 10 6 5 →
        comp ∈ faithful := by
    decide +kernel
  exact probe comp (mem_readable writable) computed

theorem computes_faithful {comp : Comp} (member : comp ∈ faithful) (dest : Machine.Destination)
    (jump : Option Jump) : Computes (computation dest comp jump) comp := by
  intro a d m
  rcases List.mem_append.mp member with listed | other
  · exact documented_output listed a d m
  · exact undocumented_output other a d m

theorem computes_iff {comp : Comp} (writable : comp.Writable) (dest : Machine.Destination)
    (jump : Option Jump) : Computes (computation dest comp jump) comp ↔ comp ∈ faithful := by
  constructor
  · intro computes
    exact faithful_of_probe writable (computes 10 6 5)
  · intro member
    exact computes_faithful member dest jump

/-- A form of the same value that gets its own control bits, for many expressions that do not. -/
def Comp.simplified : Comp → Comp
  | .unary (some .not) .zero => .unary (some .minus) .one
  | .binary .zero .plus x | .binary x .plus .zero => .unary none x
  | .binary .one .plus x => .binary x .plus .one
  | .binary x .minus .zero => .unary none x
  | .binary .zero .minus x => .unary (some .minus) x
  | .binary x .minus y => if x = y then .unary none .zero else .binary x .minus y
  | .binary .zero .and _ | .binary _ .and .zero => .unary none .zero
  | .binary x .and y => if x = y then .unary none x else .binary x .and y
  | .binary .zero .or x | .binary x .or .zero => .unary none x
  | .binary x .or y => if x = y then .unary none x else .binary x .or y
  | comp => comp

theorem simplified_value (comp : Comp) (a d m : Word) :
    comp.simplified.value a d m = comp.value a d m := by
  unfold Comp.simplified
  split
  · have ones : -(1 : Word) = ~~~0 := by decide
    exact ones
  · simp [Comp.value, Operand.value]
  · simp [Comp.value, Operand.value]
  · exact BitVec.add_comm _ _
  · simp [Comp.value, Operand.value]
  · simp [Comp.value, Operand.value]
  · split
    · rename_i same
      simp [Comp.value, Operand.value, same]
    · rfl
  · simp [Comp.value, Operand.value]
  · simp [Comp.value, Operand.value]
  · split
    · rename_i same
      simp [Comp.value, same]
    · rfl
  · simp [Comp.value, Operand.value]
  · simp [Comp.value, Operand.value]
  · split
    · rename_i same
      simp [Comp.value, same]
    · rfl
  · rfl

theorem computes_not_one : Computes ⟨false, ⟨true, true, true, true, true, false⟩,
    ⟨false, false, false⟩, ⟨false, false, false⟩⟩ (.unary (some .not) .one) := by
  intro a d m
  have ones : ~~~(0 : Word) + ~~~0 = ~~~1 := by decide
  exact ones

/-- Expressions that some control bits compute: those with a form that gets them, and the complement
of one, which has no such form. -/
def Comp.Expressible (comp : Comp) : Prop :=
  comp.simplified ∈ faithful ∨ comp = .unary (some .not) .one

instance : DecidablePred Comp.Expressible := fun comp =>
  inferInstanceAs (Decidable (comp.simplified ∈ faithful ∨ comp = .unary (some .not) .one))

/-- Two choices of values tell every other expression from what any control bits compute. -/
theorem expressible_of_probes {comp : Comp} (writable : comp.Writable) {c : Computation}
    (first : c.control.output 3 (if c.fromMemory then 0 else 8) = comp.value 8 3 0)
    (second : c.control.output 4 (if c.fromMemory then 9 else 1) = comp.value 1 4 9) :
    comp.Expressible := by
  obtain ⟨fromMemory, ⟨zx, nx, zy, ny, f, no⟩, dest, jump⟩ := c
  have probes : ∀ comp ∈ readable, comp.Expressible ∨
      ∀ fromMemory zx nx zy ny f no : Bool,
        let control : Machine.Alu.Control := ⟨zx, nx, zy, ny, f, no⟩
        ¬(control.output 3 (if fromMemory then 0 else 8) = comp.value 8 3 0 ∧
          control.output 4 (if fromMemory then 9 else 1) = comp.value 1 4 9) := by
    decide +kernel
  rcases probes comp (mem_readable writable) with expressible | differs
  · exact expressible
  · exact absurd ⟨first, second⟩ (differs fromMemory zx nx zy ny f no)

theorem exists_computes_iff {comp : Comp} (writable : comp.Writable) :
    (∃ c, Computes c comp) ↔ comp.Expressible := by
  constructor
  · rintro ⟨c, computes⟩
    exact expressible_of_probes writable (computes 8 3 0) (computes 1 4 9)
  · rintro (form | rfl)
    · have computes := computes_faithful form ⟨false, false, false⟩ none
      exact ⟨_, fun a d m => (computes a d m).trans (simplified_value comp a d m)⟩
    · exact ⟨_, computes_not_one⟩

/-- Of 115 expressions 35 get their own control bits, and for 27 there are none. -/
example : (readable.length, faithful.length, (readable.filter (¬ ·.Expressible)).length) =
    (115, 35, 27) := by
  decide +kernel

/-- The words of computing instructions, in whatever source: a word computes the expression that was
written if and only if the expression is one of those that get their own control bits. Others are not
rejected, whether or not any control bits compute them. -/
theorem emitted_computes_iff {source : List Char} {program : List Instruction} {index : Nat}
    {dest : Machine.Destination} {comp : Comp} {jump : Option Jump} {word : Word}
    (parsed : parse source = .ok program)
    (written : (executable program)[index]? = some (.compute dest comp jump))
    (emitted : (assemble source).done[index]? = some word) :
    ∃ c, Operation.decode word = .compute c ∧ (Computes c comp ↔ comp ∈ faithful) ∧
      ((∃ other, Computes other comp) ↔ comp.Expressible) := by
  have emits : word = (computation dest comp jump).encode := emits_getElem? parsed written emitted
  have member := mem_of_mem_executable (List.mem_of_getElem? written)
  have writable : comp.Writable := writable_of_parse parsed _ member
  refine ⟨computation dest comp jump, ?_, computes_iff writable dest jump,
    exists_computes_iff writable⟩
  rw [emits, decode_encode_compute]

theorem emitted_computes_iff_turned :
    let program := [.address "2", .compute ⟨false, true, false⟩ (.binary .a .plus .d) none]
    parse "@2\nD=A+D".toList = .ok program ∧
      (assemble "@2\nD=A+D".toList).done[1]? = some 0xE090#16 ∧
      ∃ c, Operation.decode 0xE090#16 = .compute c ∧ Computes c (.binary .a .plus .d) := by
  intro program
  have parsed : parse "@2\nD=A+D".toList = .ok program := by decide +kernel
  have written : (executable program)[1]? =
      some (.compute ⟨false, true, false⟩ (.binary .a .plus .d) none) := by decide +kernel
  have emitted : (assemble "@2\nD=A+D".toList).done[1]? = some 0xE090#16 := by decide +kernel
  obtain ⟨c, decoded, computes, _⟩ := emitted_computes_iff parsed written emitted
  exact ⟨parsed, emitted, c, decoded, computes.mpr (by decide)⟩

/-- The complement of one is computed as one, although other control bits would give it; and the
data register plus itself is accepted, although no control bits give that sum. -/
theorem miscomputed :
    ((assemble "D=!1".toList).done = [0xEFD0#16] ∧
      (∃ c, Operation.decode 0xEFD0#16 = .compute c ∧ ¬ Computes c (.unary (some .not) .one)) ∧
      ∃ c, Computes c (.unary (some .not) .one)) ∧
    (assemble "D=D+D".toList).done = [0xE090#16] ∧ (assemble "D=D+D".toList).failure? = none ∧
      ¬ ∃ c, Computes c (.binary .d .plus .d) := by
  refine ⟨⟨by decide +kernel, ⟨computation ⟨false, true, false⟩ (.unary (some .not) .one) none,
    rfl, ?_⟩, ⟨_, computes_not_one⟩⟩, by decide +kernel, by decide +kernel, ?_⟩
  · intro computes
    have one := computes 0 0 0
    contradiction
  · rw [exists_computes_iff (by simp [Comp.Writable])]
    decide

end HackToolchain.Assembly
