import HackToolchain.Proofs.Codegen.Statics
import HackToolchain.Proofs.Vm.Frames

/-! Assembled programs against the stack machine: every command's code does to memory what the
command does, and ends where the next command's code starts. -/
namespace HackToolchain.Codegen

open Assembly (Instruction addressOf executable executeAll At Runs maxAddress)
open Machine (Word Memory Cpu)
open Vm (Located State staticUses step? run? pop? Register.sp)

/-- A processor at the code of the machine's next command, with the machine's memory. -/
structure Represents (position : Nat → Nat) (cpu : Cpu) (s : State) : Prop where
  counter : cpu.pc = position s.next
  visible : ∀ address, ¬Vm.isScratch address → cpu.ram.read address = s.memory.read address

theorem simulates_jump {program : List Instruction} {pc target : Nat} {s : Memory} {label : String}
    (placed : At program pc (jumpTo label)) (resolved : addressOf program label = target)
    (bound : target ≤ maxAddress) : Simulates program pc s target s := by
  rintro cpu r13 r14 rfl tracks
  exact ⟨2, _, r13, r14, runs_jumpTo placed resolved bound, rfl, tracks⟩

theorem simulates_ifGoto {program : List Instruction} {pc : Nat} {s s' : Memory} {label : String}
    {value : Word} (placed : At program pc (popD ++ jumpIf label .d .ne))
    (bound : addressOf program label ≤ maxAddress) (popped : pop? s = some (value, s')) :
    Simulates program pc s (if value = 0 then pc + 6 else addressOf program label) s' := by
  rintro cpu r13 r14 rfl tracks
  obtain ⟨tracks, rfl⟩ := tracks.pop popped
  obtain ⟨lowers, _⟩ := Assembly.runs_straight cpu placed.left rfl
  rw [executeAll_popD] at lowers
  have jumps : At program (cpu.pc + 4) (jumpIf label .d .ne) := placed.right
  refine ⟨_, _, r13, r14, lowers.trans (runs_jumpIf jumps rfl bound), ?_, tracks⟩
  have zero : (top (lowered cpu.ram)).toInt = 0 ↔ top (lowered cpu.ram) = 0 := by
    rw [← BitVec.toInt_inj]
    rfl
  by_cases equal : top (lowered cpu.ram) = 0 <;>
    simp [Assembly.Jump.taken, Assembly.Operand.value, zero, equal]

namespace Linked

variable {bootstrap : Bool} {commands : List Located} {program : List Instruction}

theorem static_resolved (linked : Linked bootstrap commands program)
    (complete : Complete bootstrap commands) (apart : Apart commands) {use : String × UInt16}
    (used : use ∈ staticUses commands) :
    addressOf program (staticSymbol use) = Vm.staticAddress commands use.1 use.2 ∧
      Vm.staticAddress commands use.1 use.2 < 65536 := by
  have resolved := linked.addressOf_static complete apart used
  have new := linked.isVariable_static apart used
  rw [isVariable, Bool.and_eq_true, Bool.not_eq_true'] at new
  obtain ⟨layout, laid⟩ := linked.laid
  exact ⟨resolved, resolved ▸ Assembly.Layout.addressOf_lt laid (by simp [new.1])⟩

/-- One command. -/
theorem simulates_step (linked : Linked bootstrap commands program)
    (complete : Complete bootstrap commands) (apart : Apart commands) {s s' : State}
    (stepped : step? commands (position bootstrap commands) s = some s') :
    Simulates program (position bootstrap commands s.next) s.memory
      (position bootstrap commands s'.next) s'.memory := by
  obtain ⟨layout, laid⟩ := linked.laid
  obtain ⟨command, found, stepped⟩ := Option.bind_eq_some_iff.mp stepped
  obtain ⟨code, ⟨label, generated⟩, placed, next⟩ := linked.code found
  obtain ⟨file, scope, i⟩ := command
  have static {index : UInt16} (uses : Located.static? ⟨file, scope, i⟩ = some (file, index)) :=
    linked.static_resolved complete apart
      (List.mem_filterMap.mpr ⟨_, List.mem_of_getElem? found, uses⟩)
  have straight {memory : Memory} (stepped : State.mk memory (s.next + 1) = s')
      (performs : Performs program code s.memory memory) :
      Simulates program (position bootstrap commands s.next) s.memory
        (position bootstrap commands s'.next) s'.memory := by
    rw [← stepped, next]
    exact performs _ placed
  cases generated with
  | arithmetic op =>
    obtain ⟨memory, operated, stepped⟩ := Option.bind_eq_some_iff.mp stepped
    exact straight (Option.some.inj stepped) (performs_arithmetic laid operated)
  | pushConstant bound =>
    obtain ⟨memory, pushed, stepped⟩ := Option.bind_eq_some_iff.mp stepped
    exact straight (Option.some.inj stepped) (performs_pushConstant pushed)
  | pushBased bound located =>
    obtain ⟨memory, pushed, stepped⟩ := Option.bind_eq_some_iff.mp stepped
    exact straight (Option.some.inj stepped) (performs_pushBased located pushed)
  | @pushNamed segment index symbol bound located =>
    obtain ⟨memory, pushed, stepped⟩ := Option.bind_eq_some_iff.mp stepped
    refine straight (Option.some.inj stepped) (performs_pushNamed bound located ?_ pushed)
    rintro rfl
    exact Place.named.inj located ▸ static rfl
  | popBased bound located =>
    obtain ⟨memory, popped, stepped⟩ := Option.bind_eq_some_iff.mp stepped
    exact straight (Option.some.inj stepped) (performs_popBased located popped)
  | @popNamed segment index symbol bound located =>
    obtain ⟨memory, popped, stepped⟩ := Option.bind_eq_some_iff.mp stepped
    refine straight (Option.some.inj stepped) (performs_popNamed bound located ?_ popped)
    rintro rfl
    exact Place.named.inj located ▸ static rfl
  | label name =>
    exact straight (Option.some.inj stepped)
      (performs_straight rfl fun cpu r13 r14 tracks => ⟨r13, r14, tracks⟩)
  | goto target =>
    obtain ⟨index, found, stepped⟩ := Option.bind_eq_some_iff.mp stepped
    obtain rfl := Option.some.inj stepped
    obtain ⟨resolved, bound⟩ := linked.labelIndex found
    exact simulates_jump placed resolved bound
  | ifGoto target =>
    obtain ⟨⟨value, memory⟩, popped, stepped⟩ := Option.bind_eq_some_iff.mp stepped
    have used : .address (scope ++ "$" ++ target) ∈ program := placed.mem (by simp [jumpIf])
    have simulates := simulates_ifGoto placed (linked.loadable _ used) popped
    simp only at stepped
    split at stepped
    · rename_i zero
      obtain rfl := Option.some.inj stepped
      rwa [if_pos zero, show position bootstrap commands s.next + 6 = _ from next.symm] at simulates
    · rename_i nonzero
      obtain ⟨index, found, stepped⟩ := Option.bind_eq_some_iff.mp stepped
      obtain rfl := Option.some.inj stepped
      rwa [if_neg nonzero, (linked.labelIndex found).1] at simulates
  | function name locals =>
    obtain ⟨memory, entered, stepped⟩ := Option.bind_eq_some_iff.mp stepped
    exact straight (Option.some.inj stepped) (performs_enter entered)
  | call bound =>
    obtain ⟨memory, called, stepped⟩ := Option.bind_eq_some_iff.mp stepped
    obtain ⟨index, found, stepped⟩ := Option.bind_eq_some_iff.mp stepped
    obtain rfl := Option.some.inj stepped
    obtain ⟨resolved, bound⟩ := linked.functionIndex found
    rintro cpu r13 r14 here tracks
    rw [next, ← here] at called
    rw [← here] at placed
    obtain ⟨after, runs, pc, tracks⟩ := runs_call laid placed resolved bound called tracks
    exact ⟨_, after, r13, r14, runs, pc, tracks⟩
  | «return» =>
    obtain ⟨⟨address, memory⟩, returned, stepped⟩ := Option.bind_eq_some_iff.mp stepped
    obtain ⟨index, found, stepped⟩ := Option.bind_eq_some_iff.mp stepped
    obtain rfl := Option.some.inj stepped
    rintro cpu r13 r14 here tracks
    rw [← here] at placed
    obtain ⟨after, r13', r14', runs, pc, tracks⟩ := runs_leave placed returned tracks
    have back : position bootstrap commands index = address.toNat := by
      simpa only [decide_eq_true_eq] using List.find?_some (show List.find? _ _ = _ from found)
    exact ⟨_, after, r13', r14', runs, pc.trans back.symm, tracks⟩

end Linked

theorem Represents.tracks {position : Nat → Nat} {cpu : Cpu} {s : State}
    (represents : Represents position cpu s) :
    Tracks (cpu.ram.read 13) (cpu.ram.read 14) cpu.ram s.memory :=
  ⟨represents.visible, rfl, rfl⟩

theorem position_zero (bootstrap : Bool) (commands : List Located) :
    position bootstrap commands 0 = (executable (prologue bootstrap)).length := by
  rw [position, List.take_zero, List.map_nil, List.sum_nil, Nat.add_zero]

theorem prologue_eq : prologue true = setStack ++ call 0 entryFunction 0 :=
  rfl

theorem Tracks.refl (memory : Memory) :
    Tracks (memory.read 13) (memory.read 14) memory memory :=
  ⟨fun _ _ => rfl, rfl, rfl⟩

theorem tracks_setStack (program : List Instruction) {cpu : Cpu} {r13 r14 : Word} {s : Memory}
    (tracks : Tracks r13 r14 cpu.ram s) :
    Tracks r13 r14 (executeAll program setStack cpu).ram (s.write 0 (.ofNat 16 stackBase)) := by
  have resolved : addressOf program stackBase.repr = stackBase := Assembly.addressOf_repr ..
  have stored := tracks.store (Vm.store?_sp s (.ofNat 16 stackBase))
  rw [setStack, Assembly.executeAll_append, executeAll_storeD, Assembly.addressOf_SP]
  simp only [executeAll, List.foldl_cons, List.foldl_nil, Assembly.execute, constant, copy, toD,
    resolved, Assembly.Comp.value, Assembly.Operand.value, if_true]
  exact stored

/-- Where the machine is before its first command. With a bootstrap, the stack pointer has been set
and the entry function called. -/
def start? (bootstrap : Bool) (commands : List Located) (memory : Memory) : Option State :=
  if bootstrap then do
    let memory ← Vm.store? memory Register.sp (.ofNat 16 stackBase)
    let memory ← Vm.call? memory (.ofNat 16 (position bootstrap commands 0)) 0
    return ⟨memory, ← Vm.functionIndex? commands entryFunction⟩
  else some ⟨memory, 0⟩

theorem exists_start {bootstrap : Bool} {commands : List Located}
    (complete : Complete bootstrap commands) (memory : Memory) :
    ∃ s, start? bootstrap commands memory = some s := by
  cases bootstrap with
  | false => exact ⟨_, rfl⟩
  | true =>
    obtain ⟨index, found⟩ := Option.isSome_iff_exists.mp (complete.entry rfl)
    have top : (memory.write 0 (.ofNat 16 stackBase)).read 0 = .ofNat 16 stackBase := by
      rw [Memory.read_write, if_pos rfl]
    obtain ⟨next, called, _⟩ := Vm.exists_call top (by decide) (by decide)
      (.ofNat 16 (position true commands 0)) 0
    refine ⟨⟨next, index⟩, ?_⟩
    simp only [start?, if_true, Vm.store?_sp, called, found, Option.bind_eq_bind, Option.bind_some]
    rfl

namespace Linked

variable {bootstrap : Bool} {commands : List Located} {program : List Instruction}

/-- The code before the first command. -/
theorem runs_start (linked : Linked bootstrap commands program) {cpu : Cpu} {s : State}
    (started : start? bootstrap commands cpu.ram = some s) (first : cpu.pc = 0) :
    ∃ count next, Runs program count cpu next ∧
      Represents (position bootstrap commands) next s := by
  cases bootstrap with
  | false =>
    obtain rfl := Option.some.inj started
    exact ⟨0, cpu, .refl, first, fun _ _ => rfl⟩
  | true =>
    simp only [start?, if_true, Vm.store?_sp, Option.bind_eq_bind, Option.bind_some] at started
    obtain ⟨memory, called, started⟩ := Option.bind_eq_some_iff.mp started
    obtain ⟨index, found, started⟩ := Option.bind_eq_some_iff.mp started
    obtain rfl := Option.some.inj started
    obtain ⟨layout, laid⟩ := linked.laid
    obtain ⟨resolved, bound⟩ := linked.functionIndex found
    have placed : At program cpu.pc (setStack ++ call 0 entryFunction 0) := by
      rw [first, ← prologue_eq]
      exact linked.start
    obtain ⟨sets, pc⟩ := Assembly.runs_straight cpu placed.left rfl
    have calls := placed.right
    have address : position true commands 0 = cpu.pc + (executable setStack).length +
        (executable (call 0 entryFunction 0)).length := by
      rw [position_zero, prologue_eq, Assembly.executable_append, List.length_append, first,
        Nat.zero_add (executable setStack).length]
    rw [← pc] at calls address
    rw [address] at called
    obtain ⟨next, runs, there, tracks⟩ := runs_call laid calls resolved bound called
      (tracks_setStack program (Tracks.refl cpu.ram))
    exact ⟨_, next, sets.trans runs, there, tracks.visible⟩

/-- Any number of commands. -/
theorem simulates_run (linked : Linked bootstrap commands program)
    (complete : Complete bootstrap commands) (apart : Apart commands) {cpu : Cpu} {s s' : State}
    {count : Nat} (represents : Represents (position bootstrap commands) cpu s)
    (ran : run? commands (position bootstrap commands) count s = some s') :
    ∃ steps next, Runs program steps cpu next ∧
      Represents (position bootstrap commands) next s' := by
  induction count generalizing cpu s with
  | zero =>
    obtain rfl := Option.some.inj ran
    exact ⟨0, cpu, .refl, represents⟩
  | succ count ih =>
    obtain ⟨between, stepped, ran⟩ := Option.bind_eq_some_iff.mp ran
    obtain ⟨first, middle, r13, r14, runs, counter, tracks⟩ :=
      linked.simulates_step complete apart stepped cpu _ _ represents.counter represents.tracks
    obtain ⟨rest, next, later, represents⟩ := ih ⟨counter, tracks.visible⟩ ran
    exact ⟨first + rest, next, runs.trans later, represents⟩

end Linked

/-- The words of a translated program do what its commands do: from the first word on they reach the
state that the machine starts in, and from then on they follow it through any number of commands. -/
theorem run_translation {bootstrap annotate : Bool} {units : List (String × String)}
    (names : ∀ unit ∈ units, Vm.isSymbol unit.1)
    (translated : (translation bootstrap annotate units).failure? = none)
    (assembled : (machineCode bootstrap annotate units).failure? = none)
    (complete : Complete bootstrap (located units)) (apart : Apart (located units)) :
    (∀ cpu : Cpu, cpu.pc = 0 → ∃ s steps next,
      start? bootstrap (located units) cpu.ram = some s ∧
      Cpu.run (machineCode bootstrap annotate units).done.toArray steps cpu = (steps, next) ∧
      Represents (position bootstrap (located units)) next s) ∧
    ∀ (cpu : Cpu) (s s' : State) (count : Nat),
      Represents (position bootstrap (located units)) cpu s →
      run? (located units) (position bootstrap (located units)) count s = some s' →
      ∃ steps next,
        Cpu.run (machineCode bootstrap annotate units).done.toArray steps cpu = (steps, next) ∧
        Represents (position bootstrap (located units)) next s' := by
  obtain ⟨program, linked, same⟩ := exists_linked names translated assembled
  constructor
  · intro cpu first
    obtain ⟨s, started⟩ := exists_start complete cpu.ram
    obtain ⟨steps, next, runs, represents⟩ := linked.runs_start started first
    exact ⟨s, steps, next, started, (same steps cpu).trans runs, represents⟩
  · intro cpu s s' count represents ran
    obtain ⟨steps, next, runs, represents⟩ := linked.simulates_run complete apart represents ran
    exact ⟨steps, next, (same steps cpu).trans runs, represents⟩

/-- Stores seven in a static and stops. -/
def storeSeven : List (String × String) :=
  [("Sys", "function Sys.init 0\npush constant 7\npop static 0\nlabel END\ngoto END")]

theorem run_translation_storeSeven : ∃ s s' steps steps' next next',
    start? true (located storeSeven) Cpu.start.ram = some s ∧
    Cpu.run (machineCode true false storeSeven).done.toArray steps Cpu.start = (steps, next) ∧
    Represents (position true (located storeSeven)) next s ∧
    run? (located storeSeven) (position true (located storeSeven)) 5 s = some s' ∧
    Cpu.run (machineCode true false storeSeven).done.toArray steps' next = (steps', next') ∧
    Represents (position true (located storeSeven)) next' s' := by
  have complete : Complete true (located storeSeven) := ⟨by decide +kernel, by decide +kernel⟩
  have translated : (translation true false storeSeven).failure? = none := by decide +kernel
  have assembled : (machineCode true false storeSeven).failure? = none := by decide +kernel
  obtain ⟨starts, follows⟩ :=
    run_translation (by decide +kernel) translated assembled complete (by decide +kernel)
  obtain ⟨s, steps, next, started, ran, represents⟩ := starts Cpu.start rfl
  have five : ((start? true (located storeSeven) Cpu.start.ram).bind fun s =>
      run? (located storeSeven) (position true (located storeSeven)) 5 s).isSome := by
    decide +kernel
  rw [started] at five
  obtain ⟨s', stepped⟩ := Option.isSome_iff_exists.mp five
  obtain ⟨steps', next', ran', represents'⟩ := follows next s s' 5 represents stepped
  exact ⟨s, s', steps, steps', next, next', started, ran, represents, stepped, ran', represents'⟩

end HackToolchain.Codegen
