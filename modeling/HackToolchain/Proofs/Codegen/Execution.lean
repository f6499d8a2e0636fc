import HackToolchain.Proofs.Assembly.Placement
import HackToolchain.Proofs.Codegen.Shape
import HackToolchain.Proofs.Vm.Machine

/-! What each code sequence does to the processor, set against what its command does to memory. Code
keeps intermediate values in two scratch cells, so the two memories are compared outside these. -/
namespace HackToolchain.Codegen

open Assembly (Instruction Operand Operator Jump addressOf executable executeAll
  executeAll_append At Runs execute maxAddress)
open Machine (Word Memory Cpu)
open Vm (isScratch load? store? push? pop?)

/-- A processor's memory `c` and a stack machine's memory `s`, and what the scratch cells hold. -/
structure Tracks (r13 r14 : Word) (c s : Memory) : Prop where
  visible : ∀ address, ¬isScratch address → c.read address = s.read address
  first : c.read 13 = r13
  second : c.read 14 = r14

def pushed (memory : Memory) (value : Word) : Memory :=
  let memory := memory.write (memory.read 0).toNat value
  memory.write 0 (memory.read 0 + 1)

def lowered (memory : Memory) : Memory :=
  memory.write 0 (memory.read 0 - 1)

/-- The word that the lowered stack pointer points to. -/
def top (memory : Memory) : Word :=
  memory.read (memory.read 0).toNat

theorem load?_eq_some {s : Memory} {address value : Word} (loaded : load? s address = some value) :
    ¬isScratch address.toNat ∧ s.read address.toNat = value := by
  unfold load? at loaded
  split at loaded
  · contradiction
  · exact ⟨‹_›, Option.some.inj loaded⟩

theorem store?_eq_some {s next : Memory} {address value : Word}
    (stored : store? s address value = some next) :
    ¬isScratch address.toNat ∧ next = s.write address.toNat value := by
  unfold store? at stored
  split at stored
  · contradiction
  · exact ⟨‹_›, (Option.some.inj stored).symm⟩

theorem push?_eq_some {s next : Memory} {value : Word} (pushes : push? s value = some next) :
    ∃ sp between sp', load? s 0 = some sp ∧ store? s sp value = some between ∧
      load? between 0 = some sp' ∧ store? between 0 (sp' + 1) = some next := by
  simpa only [push?, Option.bind_eq_bind, Option.bind_eq_some_iff, exists_and_left] using pushes

theorem pop?_eq_some {s next : Memory} {value : Word} (pops : pop? s = some (value, next)) :
    ∃ sp sp', load? s 0 = some sp ∧ store? s 0 (sp - 1) = some next ∧
      load? next 0 = some sp' ∧ load? next sp' = some value := by
  simp only [pop?, Option.bind_eq_bind, Option.bind_eq_some_iff, Option.pure_def,
    Option.some.injEq, Prod.mk.injEq] at pops
  obtain ⟨sp, loaded, between, stored, sp', again, found, read, rfl, rfl⟩ := pops
  exact ⟨sp, sp', loaded, stored, again, read⟩

namespace Tracks

variable {r13 r14 address value : Word} {c s next : Memory}

theorem load (tracks : Tracks r13 r14 c s) (loaded : load? s address = some value) :
    c.read address.toNat = value := by
  obtain ⟨visible, rfl⟩ := load?_eq_some loaded
  exact tracks.visible _ visible

theorem store (tracks : Tracks r13 r14 c s) (stored : store? s address value = some next) :
    Tracks r13 r14 (c.write address.toNat value) next := by
  obtain ⟨visible, rfl⟩ := store?_eq_some stored
  simp only [isScratch, Bool.or_eq_true, decide_eq_true_eq, not_or] at visible
  constructor
  · intro other seen
    rw [Memory.read_write, Memory.read_write, tracks.visible other seen]
  · rw [Memory.read_write, if_neg (by omega), tracks.first]
  · rw [Memory.read_write, if_neg (by omega), tracks.second]

theorem keep13 (tracks : Tracks r13 r14 c s) (value : Word) :
    Tracks value r14 (c.write 13 value) s := by
  constructor
  · intro other seen
    rw [Memory.read_write, if_neg, tracks.visible other seen]
    simp only [isScratch, Bool.or_eq_true, decide_eq_true_eq, not_or] at seen
    exact seen.1
  · simp [Memory.read_write]
  · simp [Memory.read_write, tracks.second]

theorem keep14 (tracks : Tracks r13 r14 c s) (value : Word) :
    Tracks r13 value (c.write 14 value) s := by
  constructor
  · intro other seen
    rw [Memory.read_write, if_neg, tracks.visible other seen]
    simp only [isScratch, Bool.or_eq_true, decide_eq_true_eq, not_or] at seen
    exact seen.2
  · simp [Memory.read_write, tracks.first]
  · simp [Memory.read_write]

theorem push (tracks : Tracks r13 r14 c s) (pushes : push? s value = some next) :
    Tracks r13 r14 (pushed c value) next := by
  obtain ⟨sp, between, sp', loaded, stored, again, counted⟩ := push?_eq_some pushes
  have sp : c.read 0 = sp := tracks.load loaded
  have written := tracks.store stored
  have sp' : (c.write (c.read 0).toNat value).read 0 = sp' := sp ▸ written.load again
  rw [pushed, sp', sp]
  exact written.store counted

theorem pop (tracks : Tracks r13 r14 c s) (pops : pop? s = some (value, next)) :
    Tracks r13 r14 (lowered c) next ∧ top (lowered c) = value := by
  obtain ⟨sp, sp', loaded, stored, again, read⟩ := pop?_eq_some pops
  have sp : c.read 0 = sp := tracks.load loaded
  have written : Tracks r13 r14 (lowered c) next := by
    rw [lowered, sp]
    exact tracks.store stored
  have sp' : (lowered c).read 0 = sp' := written.load again
  exact ⟨written, by rw [top, sp', written.load read]⟩

end Tracks

section Sequences

variable (program : List Instruction) (cpu : Cpu)

@[simp] theorem executeAll_loadD (symbol : String) : executeAll program (loadD symbol) cpu =
    ⟨.ofNat 16 (addressOf program symbol),
      cpu.ram.read (BitVec.ofNat 16 (addressOf program symbol)).toNat, cpu.pc + 2, cpu.ram⟩ :=
  rfl

@[simp] theorem executeAll_storeD (symbol : String) : executeAll program (storeD symbol) cpu =
    ⟨.ofNat 16 (addressOf program symbol), cpu.d, cpu.pc + 2,
      cpu.ram.write (BitVec.ofNat 16 (addressOf program symbol)).toNat cpu.d⟩ :=
  rfl

@[simp] theorem executeAll_push_d : executeAll program (push .d) cpu =
    ⟨0, cpu.d, cpu.pc + 5, pushed cpu.ram cpu.d⟩ := by
  simp [executeAll, push, execute, copy, combine, toA, toM, Assembly.Comp.value, Operand.value,
    pushed]

@[simp] theorem executeAll_push_zero : executeAll program (push .zero) cpu =
    ⟨0, cpu.d, cpu.pc + 5, pushed cpu.ram 0⟩ := by
  simp [executeAll, push, execute, copy, combine, toA, toM, Assembly.Comp.value, Operand.value,
    pushed]

@[simp] theorem executeAll_popToAddress : executeAll program popToAddress cpu =
    ⟨(lowered cpu.ram).read 0, cpu.d, cpu.pc + 3, lowered cpu.ram⟩ := by
  simp [executeAll, popToAddress, execute, copy, combine, toA, toM, Assembly.Comp.value,
    Operand.value, lowered]

@[simp] theorem executeAll_popD : executeAll program popD cpu =
    ⟨(lowered cpu.ram).read 0, top (lowered cpu.ram), cpu.pc + 4, lowered cpu.ram⟩ := by
  rw [popD, executeAll_append, executeAll_popToAddress]
  rfl

@[simp] theorem executeAll_frameCell (back : Nat) : executeAll program (frameCell back) cpu =
    ⟨cpu.d - .ofNat 16 back, cpu.ram.read (cpu.d - .ofNat 16 back).toNat, cpu.pc + 3, cpu.ram⟩ := by
  simp [executeAll, frameCell, execute, constant, copy, combine, toA, toD, Assembly.Comp.value,
    Operand.value]

end Sequences

variable {program : List Instruction} {cpu : Cpu}

theorem runs_jumpIf {label : String} {target : Nat} {x : Operand} {jump : Jump}
    (placed : At program cpu.pc (jumpIf label x jump)) (resolved : addressOf program label = target)
    (bound : target ≤ maxAddress) :
    Runs program 2 cpu { cpu with
      a := .ofNat 16 target
      pc := if jump.taken (x.value (.ofNat 16 target) cpu.d
          (cpu.ram.read (BitVec.ofNat 16 target).toNat)) then target else cpu.pc + 2 } := by
  have first : At program cpu.pc ([.address label] ++ [.compute nowhere (.unary none x) jump]) :=
    placed
  have toNat : (BitVec.ofNat 16 target).toNat = target := by
    simp only [maxAddress] at bound
    rw [BitVec.toNat_ofNat]
    omega
  refine .head (first.left.fetch rfl) (.head (first.right.fetch rfl) ?_)
  simp [execute, resolved, nowhere, Assembly.Comp.value, toNat, Runs, Assembly.interpret]

theorem runs_jumpTo {label : String} {target : Nat} (placed : At program cpu.pc (jumpTo label))
    (resolved : addressOf program label = target) (bound : target ≤ maxAddress) :
    Runs program 2 cpu { cpu with a := .ofNat 16 target, pc := target } := by
  simpa [Jump.taken] using runs_jumpIf placed resolved bound

theorem isNumeric_dollar (text rest : String) (start : text.toList.head? = some '$') :
    Assembly.isNumeric (text ++ rest) = false := by
  simp [Assembly.isNumeric, start]

/-- The test decides what the data register holds, and both ways end at the same word. -/
theorem runs_truth (cpu : Cpu) {layout : Assembly.Layout}
    (laid : Assembly.Layout.ofInstructions program = .ok layout) {label : Nat} {test : Jump}
    (placed : At program cpu.pc (truth label (label + 1) test)) :
    ∃ count a, Runs program count cpu
      { cpu with a := a, d := Vm.truth (test.taken cpu.d), pc := cpu.pc + 6 } := by
  have tested : At program cpu.pc (jumpIf (trueLabel label) .d test ++ ([copy toD .zero] ++
      (jumpTo (endLabel (label + 1)) ++ ([.label (trueLabel label)] ++
        ([apply toD .minus .one] ++ [.label (endLabel (label + 1))]))))) := placed
  have failed : At program (cpu.pc + 2) _ := tested.right
  have skipped : At program (cpu.pc + 3) _ := failed.right
  have passed : At program (cpu.pc + 5) _ := skipped.right
  have set : At program (cpu.pc + 5) _ := passed.right
  have ended : At program (cpu.pc + 6) _ := set.right
  have decision := runs_jumpIf tested.left
    (passed.left.addressOf_label laid (isNumeric_dollar _ _ (by decide)))
    (passed.left.label laid).2.2
  have exit := ended.addressOf_label laid (isNumeric_dollar _ _ (by decide))
  cases taken : test.taken cpu.d with
  | true =>
    simp only [Operand.value, taken, if_true] at decision
    exact ⟨_, _, decision.trans (.head (set.left.fetch rfl) .refl)⟩
  | false =>
    simp only [Operand.value, taken, Bool.false_eq_true, if_false] at decision
    have zeroed := decision.trans (.head (failed.left.fetch rfl) .refl)
    exact ⟨_, _, zeroed.trans (runs_jumpTo skipped.left exit (ended.label laid).2.2)⟩

/-- Code at `pc` takes every processor whose memory is like `s` to `pc'` and a memory like `s'`. -/
def Simulates (program : List Instruction) (pc : Nat) (s : Memory) (pc' : Nat) (s' : Memory) :
    Prop :=
  ∀ (cpu : Cpu) (r13 r14 : Word), cpu.pc = pc → Tracks r13 r14 cpu.ram s →
    ∃ count next r13' r14', Runs program count cpu next ∧ next.pc = pc' ∧
      Tracks r13' r14' next.ram s'

/-- Wherever `code` stands in the program, it runs past its last word and takes `s` to `s'`. -/
def Performs (program code : List Instruction) (s s' : Memory) : Prop :=
  ∀ pc, At program pc code → Simulates program pc s (pc + (executable code).length) s'

theorem performs_straight {code : List Instruction} {s s' : Memory}
    (straight : code.all Assembly.Instruction.straight)
    (tracked : ∀ (cpu : Cpu) (r13 r14 : Word), Tracks r13 r14 cpu.ram s →
      ∃ r13' r14', Tracks r13' r14' (executeAll program code cpu).ram s') :
    Performs program code s s' := by
  rintro pc placed cpu r13 r14 rfl tracks
  obtain ⟨r13', r14', tracks⟩ := tracked cpu r13 r14 tracks
  obtain ⟨runs, pc⟩ := Assembly.runs_straight cpu placed straight
  exact ⟨_, _, r13', r14', runs, pc, tracks⟩

@[simp] theorem executeAll_binary (x : Operand) (op : Operator) (y : Operand) :
    executeAll program (binary x op y) cpu =
      let ram := lowered (lowered cpu.ram)
      ⟨ram.read 0,
        (Assembly.Comp.binary x op y).value (ram.read 0) (top (lowered cpu.ram)) (top ram),
        cpu.pc + 8, ram⟩ := by
  rw [binary, executeAll_append, executeAll_append, executeAll_popD, executeAll_popToAddress]
  rfl

theorem performs_binary {x y : Operand} {op : Operator} {f : Word → Word → Word} {s s' : Memory}
    (straight : (binary x op y ++ push .d).all Assembly.Instruction.straight)
    (value : ∀ a d m, (Assembly.Comp.binary x op y).value a d m = f m d)
    (operated : (do
      let (y, memory) ← pop? s
      let (x, memory) ← pop? memory
      push? memory (f x y)) = some s') :
    Performs program (binary x op y ++ push .d) s s' := by
  simp only [Option.bind_eq_bind, Option.bind_eq_some_iff] at operated
  obtain ⟨⟨second, between⟩, popped, ⟨first, lower⟩, again, pushed⟩ := operated
  refine performs_straight straight fun cpu r13 r14 tracks => ⟨r13, r14, ?_⟩
  obtain ⟨tracks, rfl⟩ := tracks.pop popped
  obtain ⟨tracks, rfl⟩ := tracks.pop again
  rw [executeAll_append, executeAll_binary, executeAll_push_d]
  simp only [value]
  exact tracks.push pushed

theorem performs_unary {op : Operator} {f : Word → Word} {s s' : Memory}
    (value : ∀ a d m, (Assembly.Comp.unary (some op) .m).value a d m = f m)
    (operated : (do
      let (x, memory) ← pop? s
      push? memory (f x)) = some s') :
    Performs program (unary op) s s' := by
  simp only [Option.bind_eq_bind, Option.bind_eq_some_iff] at operated
  obtain ⟨⟨x, between⟩, popped, pushed⟩ := operated
  refine performs_straight rfl fun cpu r13 r14 tracks => ⟨r13, r14, ?_⟩
  obtain ⟨tracks, rfl⟩ := tracks.pop popped
  rw [unary, executeAll_append, executeAll_append, executeAll_popToAddress, executeAll_push_d]
  simp only [executeAll, List.foldl_cons, List.foldl_nil, execute, apply, value]
  exact tracks.push pushed

/-- A comparison pushes what its test finds in the wrapped difference. -/
theorem runs_comparison (cpu : Cpu) {layout : Assembly.Layout}
    (laid : Assembly.Layout.ofInstructions program = .ok layout) {label : Nat} {test : Jump}
    (placed : At program cpu.pc (comparison label test)) :
    let ram := lowered (lowered cpu.ram)
    ∃ count d, Runs program count cpu ⟨0, d, cpu.pc + 19,
      pushed ram (Vm.truth (test.taken (top ram - top (lowered cpu.ram))))⟩ := by
  obtain ⟨subtracted, _⟩ := Assembly.runs_straight cpu placed.left.left rfl
  rw [executeAll_binary] at subtracted
  have tested : At program (cpu.pc + 8) (truth label (label + 1) test) := placed.left.right
  obtain ⟨count, a, decided⟩ := runs_truth (executeAll program (binary .m .minus .d) cpu) laid
    (by rw [executeAll_binary]; exact tested)
  rw [executeAll_binary] at decided
  have pushes : At program (cpu.pc + 14) (push .d) := placed.right
  obtain ⟨last, _⟩ := Assembly.runs_straight ⟨a, _, cpu.pc + 14, _⟩ pushes rfl
  rw [executeAll_push_d] at last
  exact ⟨_, _, (subtracted.trans decided).trans last⟩

theorem performs_comparison {layout : Assembly.Layout}
    (laid : Assembly.Layout.ofInstructions program = .ok layout) {label : Nat} {test : Jump}
    {s s' : Memory}
    (operated : (do
      let (y, memory) ← pop? s
      let (x, memory) ← pop? memory
      push? memory (Vm.truth (test.taken (x - y)))) = some s') :
    Performs program (comparison label test) s s' := by
  simp only [Option.bind_eq_bind, Option.bind_eq_some_iff] at operated
  obtain ⟨⟨second, between⟩, popped, ⟨first, lower⟩, again, pushed⟩ := operated
  rintro pc placed cpu r13 r14 rfl tracks
  obtain ⟨tracks, rfl⟩ := tracks.pop popped
  obtain ⟨tracks, rfl⟩ := tracks.pop again
  obtain ⟨count, d, runs⟩ := runs_comparison cpu laid placed
  exact ⟨count, _, r13, r14, runs, rfl, tracks.push pushed⟩

theorem performs_arithmetic {layout : Assembly.Layout}
    (laid : Assembly.Layout.ofInstructions program = .ok layout) {label : Nat}
    {op : Vm.ArithmeticOp} {s s' : Memory} (operated : Vm.operate? s op = some s') :
    Performs program (arithmetic label op) s s' := by
  cases op with
  | add => exact performs_binary rfl (fun _ d m => BitVec.add_comm d m) operated
  | sub => exact performs_binary rfl (fun _ _ _ => rfl) operated
  | and => exact performs_binary rfl (fun _ d m => BitVec.and_comm d m) operated
  | or => exact performs_binary rfl (fun _ d m => BitVec.or_comm d m) operated
  | neg | not => exact performs_unary (fun _ _ _ => rfl) operated
  | eq | gt | lt => exact performs_comparison laid operated

/-- The register that a segment starts from. -/
theorem cell?_based (program : List Instruction) {file register : String} {index : Nat}
    {segment : Vm.Segment} (found : location file index segment = .based register) :
    ∃ base : Word, addressOf program register = base.toNat ∧
      ∀ static s offset, Vm.cell? static s offset segment = (load? s base).map (· + offset) := by
  have loaded (s : Memory) (base offset : Word) :
      (do return (← load? s base) + offset) = (load? s base).map (· + offset) := by
    cases load? s base <;> rfl
  cases segment with
  | «local» =>
    exact ⟨1, Place.based.inj found ▸ Assembly.addressOf_LCL program, fun _ s => loaded s 1⟩
  | argument =>
    exact ⟨2, Place.based.inj found ▸ Assembly.addressOf_ARG program, fun _ s => loaded s 2⟩
  | this =>
    exact ⟨3, Place.based.inj found ▸ Assembly.addressOf_THIS program, fun _ s => loaded s 3⟩
  | that =>
    exact ⟨4, Place.based.inj found ▸ Assembly.addressOf_THAT program, fun _ s => loaded s 4⟩
  | temp | pointer | static | constant => contradiction

/-- The fixed cell of a named place. -/
theorem cell?_named {file symbol : String} {index : UInt16} {segment : Vm.Segment} {static : Nat}
    (bound : index.toNat < extent segment)
    (found : location file index.toNat segment = .named symbol)
    (resolved : segment = .static → addressOf program symbol = static ∧ static < 65536) :
    ∃ cell : Word, addressOf program symbol = cell.toNat ∧
      ∀ s, Vm.cell? static s (.ofNat 16 index.toNat) segment = some cell := by
  cases segment with
  | «local» | argument | this | that | constant => contradiction
  | static =>
    refine ⟨.ofNat 16 static, ?_, fun s => rfl⟩
    obtain ⟨resolved, small⟩ := resolved rfl
    rw [resolved, BitVec.toNat_ofNat]
    omega
  | temp =>
    obtain rfl := Place.named.inj found
    simp only [extent] at bound
    refine ⟨5 + .ofNat 16 index.toNat, ?_, fun s => rfl⟩
    rw [Assembly.addressOf_R program (by omega), BitVec.toNat_add, BitVec.toNat_ofNat]
    simp
    omega
  | pointer =>
    obtain rfl := Place.named.inj found
    simp only [extent] at bound
    refine ⟨3 + .ofNat 16 index.toNat, ?_, fun s => rfl⟩
    obtain zero | one : index.toNat = 0 ∨ index.toNat = 1 := by omega
    · simp [zero]
    · simp [one]

theorem performs_pushConstant {index : UInt16} {s s' : Memory}
    (pushes : push? s (.ofNat 16 index.toNat) = some s') :
    Performs program ([constant index.toNat, copy toD .a] ++ push .d) s s' := by
  refine performs_straight rfl fun cpu r13 r14 tracks => ⟨r13, r14, ?_⟩
  rw [executeAll_append, executeAll_push_d]
  simp only [executeAll, List.foldl_cons, List.foldl_nil, execute, constant, copy, toD,
    Assembly.addressOf_repr]
  exact tracks.push pushes

theorem pushFrom?_eq_some {static : Nat} {s s' : Memory} {index : Word} {segment : Vm.Segment}
    (stored : segment ≠ .constant) (pushes : Vm.pushFrom? static s index segment = some s') :
    ∃ cell value, Vm.cell? static s index segment = some cell ∧ load? s cell = some value ∧
      push? s value = some s' := by
  have unfolded : Vm.pushFrom? static s index segment =
      (do push? s (← load? s (← Vm.cell? static s index segment))) := by
    cases segment <;> first | rfl | contradiction
  rw [unfolded] at pushes
  simpa only [Option.bind_eq_bind, Option.bind_eq_some_iff, exists_and_left] using pushes

theorem popInto?_eq_some {static : Nat} {s s' : Memory} {index : Word} {segment : Vm.Segment}
    (pops : Vm.popInto? static s index segment = some s') :
    ∃ cell value between, Vm.cell? static s index segment = some cell ∧
      pop? s = some (value, between) ∧ store? between cell value = some s' := by
  simpa only [Vm.popInto?, Option.bind_eq_bind, Option.bind_eq_some_iff, Prod.exists,
    exists_and_left] using pops

theorem performs_pushBased {file register : String} {segment : Vm.Segment} {index : UInt16}
    {static : Nat} {s s' : Memory}
    (found : location file index.toNat segment = .based register)
    (pushes : Vm.pushFrom? static s (.ofNat 16 index.toNat) segment = some s') :
    Performs program ([constant index.toNat, copy toD .a, .address register, copy toA .m,
      combine toA .d .plus .a, copy toD .m] ++ push .d) s s' := by
  obtain ⟨base, resolved, cell?⟩ := cell?_based program found
  have stored : segment ≠ .constant := by
    rintro rfl
    contradiction
  obtain ⟨cell, value, celled, loaded, pushed⟩ := pushFrom?_eq_some stored pushes
  rw [cell?, Option.map_eq_some_iff] at celled
  obtain ⟨start, based, rfl⟩ := celled
  refine performs_straight rfl fun cpu r13 r14 tracks => ⟨r13, r14, ?_⟩
  have start := tracks.load based
  have value := tracks.load loaded
  rw [BitVec.add_comm] at value
  rw [executeAll_append, executeAll_push_d]
  simp only [executeAll, List.foldl_cons, List.foldl_nil, execute, constant, copy, combine, toA,
    toD, Assembly.addressOf_repr, resolved, Assembly.Comp.value, Operand.value, if_true,
    BitVec.ofNat_toNat, BitVec.setWidth_eq, start, value, Bool.false_eq_true, if_false]
  exact tracks.push pushed

theorem performs_pushNamed {file symbol : String} {segment : Vm.Segment} {index : UInt16}
    {static : Nat} {s s' : Memory} (bound : index.toNat < extent segment)
    (found : location file index.toNat segment = .named symbol)
    (resolved : segment = .static → addressOf program symbol = static ∧ static < 65536)
    (pushes : Vm.pushFrom? static s (.ofNat 16 index.toNat) segment = some s') :
    Performs program (loadD symbol ++ push .d) s s' := by
  obtain ⟨cell, address, cell?⟩ := cell?_named bound found resolved
  have stored : segment ≠ .constant := by
    rintro rfl
    contradiction
  obtain ⟨_, value, celled, loaded, pushed⟩ := pushFrom?_eq_some stored pushes
  obtain rfl := Option.some.inj ((cell? s).symm.trans celled)
  refine performs_straight rfl fun cpu r13 r14 tracks => ⟨r13, r14, ?_⟩
  rw [executeAll_append, executeAll_push_d, executeAll_loadD]
  simp only [address, BitVec.ofNat_toNat, BitVec.setWidth_eq, tracks.load loaded]
  exact tracks.push pushed

theorem performs_popBased {file register : String} {segment : Vm.Segment} {index : UInt16}
    {static : Nat} {s s' : Memory}
    (found : location file index.toNat segment = .based register)
    (pops : Vm.popInto? static s (.ofNat 16 index.toNat) segment = some s') :
    Performs program ([.address register, copy toD .m, constant index.toNat,
      combine toD .d .plus .a] ++ storeD "R13" ++ popD ++
        [.address "R13", copy toA .m, copy toM .d]) s s' := by
  obtain ⟨base, resolved, cell?⟩ := cell?_based program found
  obtain ⟨cell, value, between, celled, popped, stored⟩ := popInto?_eq_some pops
  rw [cell?, Option.map_eq_some_iff] at celled
  obtain ⟨start, based, rfl⟩ := celled
  refine performs_straight rfl fun cpu r13 r14 tracks =>
    ⟨start + .ofNat 16 index.toNat, r14, ?_⟩
  have start := tracks.load based
  have tracks := tracks.keep13 (cpu.ram.read base.toNat + .ofNat 16 index.toNat)
  obtain ⟨tracks, value⟩ := tracks.pop popped
  have kept := tracks.first
  subst start
  rw [executeAll_append, executeAll_append, executeAll_append, executeAll_popD, executeAll_storeD]
  simp only [executeAll, List.foldl_cons, List.foldl_nil, execute, constant, copy, combine, toA,
    toD, toM, Assembly.addressOf_repr, Assembly.addressOf_R13, resolved, Assembly.Comp.value,
    Operand.value, if_true, BitVec.ofNat_toNat, BitVec.setWidth_eq, Bool.false_eq_true, if_false,
    BitVec.toNat_ofNat, Nat.reducePow, Nat.reduceMod, kept, value]
  exact tracks.store stored

theorem performs_popNamed {file symbol : String} {segment : Vm.Segment} {index : UInt16}
    {static : Nat} {s s' : Memory} (bound : index.toNat < extent segment)
    (found : location file index.toNat segment = .named symbol)
    (resolved : segment = .static → addressOf program symbol = static ∧ static < 65536)
    (pops : Vm.popInto? static s (.ofNat 16 index.toNat) segment = some s') :
    Performs program (popD ++ storeD symbol) s s' := by
  obtain ⟨cell, address, cell?⟩ := cell?_named bound found resolved
  obtain ⟨_, value, between, celled, popped, stored⟩ := popInto?_eq_some pops
  obtain rfl := Option.some.inj ((cell? s).symm.trans celled)
  refine performs_straight rfl fun cpu r13 r14 tracks => ⟨r13, r14, ?_⟩
  obtain ⟨tracks, rfl⟩ := tracks.pop popped
  rw [executeAll_append, executeAll_popD, executeAll_storeD]
  simp only [address, BitVec.ofNat_toNat, BitVec.setWidth_eq]
  exact tracks.store stored

end HackToolchain.Codegen
