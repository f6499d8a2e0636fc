import HackToolchain.Proofs.Codegen.Execution

/-! The code of functions, calls and returns. A call ends in the jump to its function, a return in
the jump to the address that the frame held. -/
namespace HackToolchain.Codegen

open Assembly (Instruction addressOf executable executeAll executeAll_append At Runs execute
  maxAddress)
open Machine (Word Memory Cpu)
open Vm (load? store? push? pop? Register.sp Register.lcl Register.arg Register.this Register.that)

variable {program : List Instruction} {cpu : Cpu} {r13 r14 : Word} {s s' : Memory}

theorem Tracks.locals (program : List Instruction) (cpu : Cpu) {locals : Nat}
    (tracks : Tracks r13 r14 cpu.ram s) (entered : Vm.enter? s locals = some s') :
    Tracks r13 r14 (executeAll program (List.replicate locals (Codegen.push .zero)).flatten cpu).ram
      s' := by
  induction locals generalizing cpu s with
  | zero => exact Option.some.inj entered ▸ tracks
  | succ locals ih =>
    rw [Vm.enter?, List.replicate_succ, List.foldlM_cons] at entered
    obtain ⟨between, pushed, entered⟩ := Option.bind_eq_some_iff.mp entered
    rw [List.replicate_succ, List.flatten_cons, executeAll_append, executeAll_push_zero]
    exact ih _ (tracks.push pushed) entered

theorem performs_enter {function : String} {locals : Nat}
    (entered : Vm.enter? s locals = some s') :
    Performs program (enter function locals) s s' := by
  refine performs_straight ?_ fun cpu r13 r14 tracks =>
    ⟨r13, r14, tracks.locals program cpu entered⟩
  have pushes (count : Nat) :
      (List.replicate count (push .zero)).flatten.all Assembly.Instruction.straight := by
    induction count with
    | zero => rfl
    | succ count ih =>
      rw [List.replicate_succ, List.flatten_cons, List.all_append, ih]
      rfl
  exact pushes locals

/-- The code of a call before its jump. -/
def saveFrame (label arguments : Nat) : List Instruction :=
  [.address (returnLabel label), copy toD .a] ++ push .d ++
    savedRegisters.flatMap (fun register => loadD register ++ push .d) ++
    loadD "SP" ++ [constant (arguments + frameSize), combine toD .d .minus .a] ++ storeD "ARG" ++
    loadD "SP" ++ storeD "LCL"

theorem call_eq (label : Nat) (function : String) (arguments : Nat) :
    call label function arguments =
      saveFrame label arguments ++ (jumpTo function ++ [.label (returnLabel label)]) :=
  rfl

theorem Tracks.save (program : List Instruction) {symbol : String} {register : Word}
    (tracks : Tracks r13 r14 cpu.ram s)
    (resolved : addressOf program symbol = register.toNat)
    (saved : (do push? s (← load? s register)) = some s') :
    Tracks r13 r14 (executeAll program (loadD symbol ++ Codegen.push .d) cpu).ram s' := by
  obtain ⟨value, loaded, pushed⟩ := Option.bind_eq_some_iff.mp saved
  have value := tracks.load loaded
  rw [executeAll_append, executeAll_loadD, executeAll_push_d, resolved]
  simp only [BitVec.ofNat_toNat, BitVec.setWidth_eq, value]
  exact tracks.push pushed

theorem Tracks.saveAll (program : List Instruction) (tracks : Tracks r13 r14 cpu.ram s)
    (saved : [Register.lcl, Register.arg, Register.this, Register.that].foldlM
      (fun memory register => do push? memory (← load? memory register)) s = some s') :
    Tracks r13 r14 (executeAll program
      (savedRegisters.flatMap fun register => loadD register ++ Codegen.push .d) cpu).ram s' := by
  simp only [List.foldlM_cons, List.foldlM_nil] at saved
  obtain ⟨lcl, first, saved⟩ := Option.bind_eq_some_iff.mp saved
  obtain ⟨arg, second, saved⟩ := Option.bind_eq_some_iff.mp saved
  obtain ⟨this, third, saved⟩ := Option.bind_eq_some_iff.mp saved
  obtain ⟨that, fourth, saved⟩ := Option.bind_eq_some_iff.mp saved
  obtain rfl := Option.some.inj saved
  simp only [savedRegisters, List.flatMap_cons, List.flatMap_nil, List.append_nil,
    executeAll_append _ (_ ++ Codegen.push .d)]
  have tracks := tracks.save program (Assembly.addressOf_LCL program) first
  have tracks := tracks.save program (Assembly.addressOf_ARG program) second
  have tracks := tracks.save program (Assembly.addressOf_THIS program) third
  have tracks := tracks.save program (Assembly.addressOf_THAT program) fourth
  exact tracks

theorem call?_eq_some {address : Word} {arguments : Nat}
    (called : Vm.call? s address arguments = some s') :
    ∃ first second third sp sp', push? s address = some first ∧
      [Register.lcl, Register.arg, Register.this, Register.that].foldlM
        (fun memory register => do push? memory (← load? memory register)) first = some second ∧
      load? second Register.sp = some sp ∧
      store? second Register.arg (sp - .ofNat 16 (arguments + 5)) = some third ∧
      load? third Register.sp = some sp' ∧ store? third Register.lcl sp' = some s' := by
  simp only [Vm.call?, Option.bind_eq_bind] at called
  obtain ⟨first, pushed, called⟩ := Option.bind_eq_some_iff.mp called
  obtain ⟨second, saved, called⟩ := Option.bind_eq_some_iff.mp called
  obtain ⟨sp, loaded, called⟩ := Option.bind_eq_some_iff.mp called
  obtain ⟨third, stored, called⟩ := Option.bind_eq_some_iff.mp called
  obtain ⟨sp', again, called⟩ := Option.bind_eq_some_iff.mp called
  exact ⟨first, second, third, sp, sp', pushed, saved, loaded, stored, again, called⟩

theorem Tracks.point (program : List Instruction) {arguments : Nat} {between : Memory}
    {sp sp' : Word} (tracks : Tracks r13 r14 cpu.ram s) (loaded : load? s Register.sp = some sp)
    (stored : store? s Register.arg (sp - .ofNat 16 (arguments + 5)) = some between)
    (again : load? between Register.sp = some sp')
    (last : store? between Register.lcl sp' = some s') :
    Tracks r13 r14 (executeAll program (loadD "SP" ++ [constant (arguments + frameSize),
      combine toD .d .minus .a] ++ storeD "ARG" ++ loadD "SP" ++ storeD "LCL") cpu).ram s' := by
  have first : cpu.ram.read 0 = sp := tracks.load loaded
  have tracks := tracks.store stored
  have second : (cpu.ram.write 2 (sp - .ofNat 16 (arguments + frameSize))).read 0 = sp' :=
    tracks.load again
  have tracks := tracks.store last
  simp only [executeAll_append, executeAll_storeD, executeAll_loadD]
  simp only [executeAll, List.foldl_cons, List.foldl_nil, execute, constant, combine, toD,
    Assembly.addressOf_repr, Assembly.addressOf_SP, Assembly.addressOf_ARG, Assembly.addressOf_LCL,
    Assembly.Comp.value, Assembly.Operand.value, if_true, Bool.false_eq_true, if_false,
    BitVec.toNat_ofNat, Nat.zero_mod, Nat.reduceMod, Nat.reducePow, first, second]
  exact tracks

theorem Tracks.saveFrame (program : List Instruction) {label arguments : Nat}
    (tracks : Tracks r13 r14 cpu.ram s)
    (called : Vm.call? s (.ofNat 16 (addressOf program (returnLabel label))) arguments =
      some s') :
    Tracks r13 r14 (executeAll program (saveFrame label arguments) cpu).ram s' := by
  obtain ⟨first, second, third, sp, sp', pushed, saved, loaded, stored, again, last⟩ :=
    call?_eq_some called
  have returns : Tracks r13 r14 (executeAll program
      ([.address (returnLabel label), copy toD .a] ++ Codegen.push .d) cpu).ram first := by
    rw [executeAll_append, executeAll_push_d]
    exact tracks.push pushed
  have pointed := (returns.saveAll program saved).point program loaded stored again last
  rw [← executeAll_append, ← executeAll_append] at pointed
  simpa only [Codegen.saveFrame, List.append_assoc] using pointed

theorem length_call (label : Nat) (function : String) (arguments : Nat) :
    (executable (call label function arguments)).length =
      (executable (saveFrame label arguments)).length + 2 := by
  rw [call_eq, Assembly.executable_append, List.length_append]
  rfl

/-- The return label of a call stands at the end of its code. -/
theorem at_returnLabel {pc label arguments : Nat} {function : String}
    (placed : At program pc (call label function arguments)) :
    At program (pc + (executable (call label function arguments)).length)
      [.label (returnLabel label)] := by
  rw [length_call, ← Nat.add_assoc]
  rw [call_eq] at placed
  exact placed.right.right

/-- A call goes to its function, and its frame holds the address of the word after its code. -/
theorem runs_call {layout : Assembly.Layout}
    (laid : Assembly.Layout.ofInstructions program = .ok layout) {label arguments : Nat}
    {function : String} {target : Nat} (placed : At program cpu.pc (call label function arguments))
    (resolved : addressOf program function = target) (bound : target ≤ maxAddress)
    (called : Vm.call? s (.ofNat 16 (cpu.pc + (executable (call label function arguments)).length))
      arguments = some s') (tracks : Tracks r13 r14 cpu.ram s) :
    ∃ next, Runs program (executable (call label function arguments)).length cpu next ∧
      next.pc = target ∧ Tracks r13 r14 next.ram s' := by
  have returns := (at_returnLabel placed).addressOf_label laid (isNumeric_dollar _ _ (by decide))
  rw [← returns] at called
  rw [call_eq] at placed
  obtain ⟨saved, pc⟩ := Assembly.runs_straight cpu placed.left rfl
  have jumps := placed.right.left
  rw [← pc] at jumps
  rw [length_call]
  exact ⟨_, saved.trans (runs_jumpTo jumps resolved bound), rfl, tracks.saveFrame program called⟩

/-- The code of a return up to the point where only the caller's registers are missing. -/
def giveResult : List Instruction :=
  loadD "LCL" ++ storeD "R13" ++ frameCell frameSize ++ storeD "R14" ++
    popD ++ [.address "ARG", copy toA .m, copy toM .d] ++
    [.address "ARG", combine toD .m .plus .one] ++ storeD "SP"

def restore (symbol : String) (back : Nat) : List Instruction :=
  loadD "R13" ++ frameCell back ++ storeD symbol

theorem leave_eq : leave = giveResult ++
    ((savedRegisters.reverse.zipIdx 1).flatMap (fun (symbol, back) => restore symbol back) ++
      ([.address "R14", copy toA .m] ++
        [.compute nowhere (.unary none .zero) (some .always)])) :=
  rfl

theorem return?_eq_some {address : Word} (returned : Vm.return? s = some (address, s')) :
    ∃ frame value popped arg stored arg' lowered, load? s Register.lcl = some frame ∧
      load? s (frame - 5) = some address ∧ pop? s = some (value, popped) ∧
      load? popped Register.arg = some arg ∧ store? popped arg value = some stored ∧
      load? stored Register.arg = some arg' ∧
      store? stored Register.sp (arg' + 1) = some lowered ∧
      [(Register.that, (1 : Word)), (Register.this, 2), (Register.arg, 3), (Register.lcl, 4)].foldlM
        (fun memory (register, back) => do store? memory register (← load? memory (frame - back)))
        lowered = some s' := by
  simp only [Vm.return?, Option.bind_eq_bind] at returned
  obtain ⟨frame, lcl, returned⟩ := Option.bind_eq_some_iff.mp returned
  obtain ⟨address', back, returned⟩ := Option.bind_eq_some_iff.mp returned
  obtain ⟨⟨value, popped⟩, pops, returned⟩ := Option.bind_eq_some_iff.mp returned
  obtain ⟨arg, loaded, returned⟩ := Option.bind_eq_some_iff.mp returned
  obtain ⟨stored, stores, returned⟩ := Option.bind_eq_some_iff.mp returned
  obtain ⟨arg', again, returned⟩ := Option.bind_eq_some_iff.mp returned
  obtain ⟨lowered, lowers, returned⟩ := Option.bind_eq_some_iff.mp returned
  obtain ⟨last, restored, returned⟩ := Option.bind_eq_some_iff.mp returned
  obtain ⟨rfl, rfl⟩ := Prod.mk.inj (Option.some.inj returned)
  exact ⟨frame, value, popped, arg, stored, arg', lowered, lcl, back, pops, loaded, stores, again,
    lowers, restored⟩

theorem Tracks.restore (program : List Instruction) {symbol : String} {register : Word} {back : Nat}
    (tracks : Tracks r13 r14 cpu.ram s) (resolved : addressOf program symbol = register.toNat)
    (restored : (do store? s register (← load? s (r13 - .ofNat 16 back))) = some s') :
    Tracks r13 r14 (executeAll program (restore symbol back) cpu).ram s' := by
  obtain ⟨value, loaded, stored⟩ := Option.bind_eq_some_iff.mp restored
  have value := tracks.load loaded
  simp only [Codegen.restore, executeAll_append, executeAll_loadD, executeAll_frameCell,
    executeAll_storeD, resolved, Assembly.addressOf_R13, BitVec.toNat_ofNat, Nat.reduceMod,
    Nat.reducePow, BitVec.ofNat_toNat, BitVec.setWidth_eq, tracks.first, value]
  exact tracks.store stored

theorem Tracks.restoreAll (program : List Instruction) (tracks : Tracks r13 r14 cpu.ram s)
    (restored : [(Register.that, (1 : Word)), (Register.this, 2), (Register.arg, 3),
      (Register.lcl, 4)].foldlM (fun memory (register, back) => do
        store? memory register (← load? memory (r13 - back))) s = some s') :
    Tracks r13 r14 (executeAll program ((savedRegisters.reverse.zipIdx 1).flatMap
      fun (symbol, back) => Codegen.restore symbol back) cpu).ram s' := by
  simp only [List.foldlM_cons, List.foldlM_nil] at restored
  obtain ⟨that, first, restored⟩ := Option.bind_eq_some_iff.mp restored
  obtain ⟨this, second, restored⟩ := Option.bind_eq_some_iff.mp restored
  obtain ⟨arg, third, restored⟩ := Option.bind_eq_some_iff.mp restored
  obtain ⟨lcl, fourth, restored⟩ := Option.bind_eq_some_iff.mp restored
  obtain rfl := Option.some.inj restored
  have tracks := tracks.restore program (Assembly.addressOf_THAT program) first
  have tracks := tracks.restore program (Assembly.addressOf_THIS program) second
  have tracks := tracks.restore program (Assembly.addressOf_ARG program) third
  have tracks := tracks.restore program (Assembly.addressOf_LCL program) fourth
  simp only [← executeAll_append] at tracks
  exact tracks

/-- The scratch cells take the frame and the return address before anything is overwritten. -/
theorem Tracks.giveResult (program : List Instruction) {frame address value arg arg' : Word}
    {popped stored lowered : Memory} (tracks : Tracks r13 r14 cpu.ram s)
    (framed : load? s Register.lcl = some frame) (returns : load? s (frame - 5) = some address)
    (pops : pop? s = some (value, popped)) (loaded : load? popped Register.arg = some arg)
    (stores : store? popped arg value = some stored)
    (again : load? stored Register.arg = some arg')
    (lowers : store? stored Register.sp (arg' + 1) = some lowered) :
    Tracks frame address (executeAll program giveResult cpu).ram lowered := by
  have framed : cpu.ram.read 1 = frame := tracks.load framed
  have tracks := tracks.keep13 frame
  have returns : (cpu.ram.write 13 frame).read (frame - .ofNat 16 frameSize).toNat = address :=
    tracks.load returns
  have tracks := tracks.keep14 address
  obtain ⟨tracks, result⟩ := tracks.pop pops
  simp only [Codegen.giveResult, executeAll_append, executeAll_loadD, executeAll_frameCell,
    executeAll_storeD, executeAll_popD]
  simp only [executeAll, List.foldl_cons, List.foldl_nil, execute, copy, combine, toA, toD, toM,
    Assembly.addressOf_SP, Assembly.addressOf_LCL, Assembly.addressOf_ARG, Assembly.addressOf_R13,
    Assembly.addressOf_R14, Assembly.Comp.value, Assembly.Operand.value, if_true,
    Bool.false_eq_true, if_false, BitVec.toNat_ofNat, Nat.zero_mod, Nat.reduceMod, Nat.reducePow,
    framed, returns, result]
  generalize Codegen.lowered ((cpu.ram.write 13 frame).write 14 address) = ram at tracks ⊢
  have first : ram.read 2 = arg := tracks.load loaded
  have tracks := tracks.store stores
  have second : (ram.write arg.toNat value).read 2 = arg' := tracks.load again
  rw [first, second]
  exact tracks.store lowers

theorem execute_jumpBack (before : Cpu) :
    execute program (executeAll program [.address "R14", copy toA .m] before)
        (.compute nowhere (.unary none .zero) (some .always)) =
      ⟨before.ram.read 14, before.d, (before.ram.read 14).toNat, before.ram⟩ := by
  simp only [executeAll, List.foldl_cons, List.foldl_nil, execute, copy, toA, nowhere,
    Assembly.addressOf_R14, Assembly.Comp.value, Assembly.Operand.value, Assembly.Jump.taken,
    BitVec.toNat_ofNat, Nat.reduceMod, Nat.reducePow, Option.any_some, if_true,
    Bool.false_eq_true, if_false]

/-- A return goes to the address that the frame held. -/
theorem runs_leave {address : Word} (placed : At program cpu.pc leave)
    (returned : Vm.return? s = some (address, s')) (tracks : Tracks r13 r14 cpu.ram s) :
    ∃ next r13' r14', Runs program (executable leave).length cpu next ∧
      next.pc = address.toNat ∧ Tracks r13' r14' next.ram s' := by
  obtain ⟨frame, value, popped, arg, stored, arg', lowered, lcl, back, pops, loaded, stores, again,
    lowers, restored⟩ := return?_eq_some returned
  have tracks := tracks.giveResult program lcl back pops loaded stores again lowers
  have tracks := tracks.restoreAll program restored
  rw [leave_eq, ← List.append_assoc, ← List.append_assoc] at placed ⊢
  obtain ⟨runs, pc⟩ := Assembly.runs_straight cpu placed.left rfl
  have last := placed.right
  rw [← pc] at last
  have jumped := runs.trans (Runs.head (last.fetch rfl) .refl)
  have one : (executable [.compute nowhere (.unary none .zero) (some .always)]).length = 0 + 1 :=
    rfl
  rw [Assembly.executable_append, List.length_append, one]
  rw [executeAll_append, executeAll_append] at jumped
  rw [execute_jumpBack] at jumped
  generalize executeAll program _ (executeAll program giveResult cpu) = before at tracks jumped
  have target : before.ram.read 14 = address := tracks.second
  rw [target] at jumped
  exact ⟨_, frame, address, jumped, rfl, tracks⟩

end HackToolchain.Codegen
