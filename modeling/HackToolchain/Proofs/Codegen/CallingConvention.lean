import HackToolchain.Proofs.Codegen.Linking
import HackToolchain.Proofs.Codegen.Frames
import HackToolchain.Proofs.Vm.Frames

/-! What a call leaves behind once it has returned, whatever ran in between and however deeply calls
were nested there, as long as only calls and returns touch the frames. -/
namespace HackToolchain.Codegen

open Assembly (Instruction addressOf executable interpret At Runs maxAddress)
open Machine (Word Memory Cpu)
open Vm (Located Called Returned visible_of_bounds)

theorem Tracks.called {r13 r14 : Word} {c s s' : Memory} {pointer address : Word} {arguments : Nat}
    (tracks : Tracks r13 r14 c s') (called : Called s s' pointer address arguments)
    (low : 16 ≤ pointer.toNat) (high : pointer.toNat + 5 ≤ 32768) :
    Called s c pointer address arguments := by
  have seen (cell : Nat) (low : 16 ≤ cell) (high : cell < 32768) : c.read cell = s'.read cell :=
    tracks.visible cell (visible_of_bounds low high)
  constructor
  · exact (tracks.visible 0 (by decide)).trans called.sp
  · exact (tracks.visible 1 (by decide)).trans called.lcl
  · exact (tracks.visible 2 (by decide)).trans called.arg
  · exact (seen _ low (by omega)).trans called.returnAddress
  · exact (seen _ (by omega) (by omega)).trans called.savedLcl
  · exact (seen _ (by omega) (by omega)).trans called.savedArg
  · exact (seen _ (by omega) (by omega)).trans called.savedThis
  · exact (seen _ (by omega) (by omega)).trans called.savedThat
  · exact fun cell bound low outside =>
      (seen cell low bound).trans (called.others cell bound low outside)

theorem Tracks.returned {r13 r14 : Word} {c s s' : Memory} (tracks : Tracks r13 r14 c s')
    (returned : Returned s s') (low : 16 ≤ (s.read 2).toNat) (high : (s.read 2).toNat < 32768) :
    Returned s c := by
  constructor
  · exact (tracks.visible 0 (by decide)).trans returned.sp
  · exact (tracks.visible 1 (by decide)).trans returned.lcl
  · exact (tracks.visible 2 (by decide)).trans returned.arg
  · exact (tracks.visible 3 (by decide)).trans returned.this
  · exact (tracks.visible 4 (by decide)).trans returned.that
  · exact (tracks.visible _ (visible_of_bounds low high)).trans returned.result
  · exact fun cell bound low apart =>
      (tracks.visible cell (visible_of_bounds low bound)).trans
        (returned.others cell bound low apart)

/-- A processor that is about to run the code of command number `index`. -/
structure Before (bootstrap : Bool) (commands : List Located) (cpu : Cpu) (index : Nat)
    (i : Vm.Instruction) : Prop where
  command : commands[index]?.map Located.instruction = some i
  counter : cpu.pc = position bootstrap commands index

/-- The code of a command run from its first word to its last. -/
def Executes (rom : Array Word) (i : Vm.Instruction) (cpu next : Cpu) : Prop :=
  Cpu.run rom (size i) cpu = (size i, next)

section Sequences

variable {bootstrap : Bool} {commands : List Located} {program : List Instruction}
  {rom : Array Word} {cpu : Cpu} {index : Nat}

theorem executes_call (linked : Linked bootstrap commands program)
    (same : ∀ limit cpu, Cpu.run rom limit cpu = interpret program limit cpu) {function : String}
    {arguments : UInt16} (before : Before bootstrap commands cpu index (.call function arguments))
    (low : 16 ≤ (cpu.ram.read 0).toNat) (high : (cpu.ram.read 0).toNat + 5 ≤ 32768) :
    ∃ next, Executes rom (.call function arguments) cpu next ∧
      Called cpu.ram next.ram (cpu.ram.read 0)
        (.ofNat 16 (position bootstrap commands (index + 1))) arguments.toNat ∧
      position bootstrap commands (index + 1) ≤ maxAddress := by
  obtain ⟨⟨file, scope, i⟩, found, rfl⟩ := Option.map_eq_some_iff.mp before.command
  obtain ⟨layout, laid⟩ := linked.laid
  obtain ⟨code, ⟨label, generated⟩, placed, next⟩ := linked.code found
  have words := generated.length_executable
  cases generated with
  | call bound =>
    rw [← before.counter] at placed next
    obtain ⟨memory, called, effect⟩ := Vm.exists_call rfl low high
      (.ofNat 16 (cpu.pc + (executable (call label function arguments.toNat)).length))
      arguments.toNat
    have used : .address function ∈ program := placed.mem (by simp [call, jumpTo, jumpIf])
    obtain ⟨entered, runs, _, tracks⟩ := runs_call laid placed rfl (linked.loadable _ used) called
      ⟨fun _ _ => rfl, rfl, rfl⟩
    rw [words] at runs
    rw [next]
    exact ⟨entered, (same _ cpu).trans runs, tracks.called effect low high,
      ((at_returnLabel placed).label laid).2.2⟩

/-- A return goes to the address that the frame held. -/
theorem executes_return (linked : Linked bootstrap commands program)
    (same : ∀ limit cpu, Cpu.run rom limit cpu = interpret program limit cpu)
    (before : Before bootstrap commands cpu index .return) (low : 16 ≤ (cpu.ram.read 2).toNat)
    (framed : (cpu.ram.read 2).toNat + 5 ≤ (cpu.ram.read 1).toNat)
    (high : (cpu.ram.read 1).toNat ≤ 32768) (above : 16 < (cpu.ram.read 0).toNat)
    (below : (cpu.ram.read 0).toNat ≤ 32768) :
    ∃ next, Executes rom .return cpu next ∧
      next.pc = (cpu.ram.read ((cpu.ram.read 1).toNat - 5)).toNat ∧
      Returned cpu.ram next.ram := by
  obtain ⟨⟨file, scope, i⟩, found, rfl⟩ := Option.map_eq_some_iff.mp before.command
  obtain ⟨code, ⟨label, generated⟩, placed, _⟩ := linked.code found
  have words := generated.length_executable
  cases generated with
  | «return» =>
    rw [← before.counter] at placed
    obtain ⟨memory, returned, effect⟩ := Vm.exists_return low framed high above below
    obtain ⟨next, r13, r14, runs, pc, tracks⟩ := runs_leave placed returned
      ⟨fun _ _ => rfl, rfl, rfl⟩
    rw [words] at runs
    exact ⟨next, (same _ cpu).trans runs, pc, tracks.returned effect low (by omega)⟩

end Sequences

/-- The registers that a call gave its function. -/
structure Frame where
  locals : Nat
  argument : Nat

def Frame.current (memory : Memory) : Frame :=
  ⟨(memory.read 1).toNat, (memory.read 2).toNat⟩

/-- The cells below the locals, where the return address and the caller's registers are kept. -/
def Frame.Saves (frame : Frame) (cell : Nat) : Prop :=
  frame.locals - 5 ≤ cell ∧ cell < frame.locals

/-- A processor inside calls that have not returned, the innermost first. -/
structure Nesting where
  cpu : Cpu
  frames : List Frame

/-- Calls and returns run as a whole, and the arguments of a call and the result of a return lie
above the locals. Any other word leaves the frames and the registers that point to them as they are.
The outermost call does not return. -/
inductive Advances (bootstrap : Bool) (commands : List Located) (rom : Array Word) :
    Nesting → Nesting → Prop
  | word {cpu next : Cpu} {frames : List Frame} (stepped : cpu.step? rom = some next)
      (locals : next.ram.read 1 = cpu.ram.read 1) (argument : next.ram.read 2 = cpu.ram.read 2)
      (kept : ∀ frame ∈ frames, ∀ cell, frame.Saves cell →
        next.ram.read cell = cpu.ram.read cell) :
      Advances bootstrap commands rom ⟨cpu, frames⟩ ⟨next, frames⟩
  | call {cpu next : Cpu} {frames : List Frame} {index : Nat} {function : String}
      {arguments : UInt16} (before : Before bootstrap commands cpu index (.call function arguments))
      (above : (cpu.ram.read 1).toNat + arguments.toNat ≤ (cpu.ram.read 0).toNat)
      (room : (cpu.ram.read 0).toNat + 5 ≤ 32768)
      (executes : Executes rom (.call function arguments) cpu next) :
      Advances bootstrap commands rom ⟨cpu, frames⟩ ⟨next, .current next.ram :: frames⟩
  | «return» {cpu next : Cpu} {frame caller : Frame} {frames : List Frame} {index : Nat}
      (before : Before bootstrap commands cpu index .return)
      (above : (cpu.ram.read 1).toNat < (cpu.ram.read 0).toNat)
      (room : (cpu.ram.read 0).toNat ≤ 32768) (executes : Executes rom .return cpu next) :
      Advances bootstrap commands rom ⟨cpu, frame :: caller :: frames⟩ ⟨next, caller :: frames⟩

theorem step?_run {rom : Array Word} {count : Nat} {cpu : Cpu}
    (inside : (Cpu.run rom count cpu).2.pc < rom.size) :
    (Cpu.run rom count cpu).2.step? rom = some (Cpu.run rom (count + 1) cpu).2 := by
  unfold Cpu.run at inside ⊢
  generalize 0 = done at inside ⊢
  induction count generalizing done cpu with
  | zero =>
    rw [Cpu.runFrom] at inside ⊢
    rw [Cpu.runFrom, Cpu.step?, Array.getElem?_eq_getElem inside]
    rfl
  | succ count ih =>
    rw [Cpu.runFrom] at inside ⊢
    cases found : rom[cpu.pc]? with
    | none =>
      simp only [found] at inside
      exact absurd inside (Nat.not_lt.mpr (Array.getElem?_eq_none_iff.mp found))
    | some word =>
      simp only [found] at inside ⊢
      rw [Cpu.runFrom, found]
      exact ih _ inside

/-- So many words leave the frames and the registers that point to them as they are. -/
def Keeps (rom : Array Word) (frames : List Frame) (cpu : Cpu) (count : Nat) : Prop :=
  ∀ k < count, (Cpu.run rom k cpu).2.pc < rom.size ∧
    ∀ cell ∈ 1 :: 2 :: frames.flatMap fun frame => List.range' (frame.locals - 5) 5,
      (Cpu.run rom (k + 1) cpu).2.ram.read cell = (Cpu.run rom k cpu).2.ram.read cell

instance (rom : Array Word) (frames : List Frame) (cpu : Cpu) (count : Nat) :
    Decidable (Keeps rom frames cpu count) := by
  unfold Keeps
  infer_instance

theorem advances_words {bootstrap : Bool} {commands : List Located} {rom : Array Word} {cpu : Cpu}
    {frames : List Frame} {count : Nat} (kept : Keeps rom frames cpu count) :
    Relation.ReflTransGen (Advances bootstrap commands rom) ⟨cpu, frames⟩
      ⟨(Cpu.run rom count cpu).2, frames⟩ := by
  induction count with
  | zero => exact .refl
  | succ count ih =>
    obtain ⟨inside, kept'⟩ := kept count (Nat.lt_succ_self count)
    have before := ih fun k bound => kept k (Nat.lt_succ_of_lt bound)
    apply before.tail
    apply Advances.word (step?_run inside) (kept' 1 (.head _)) (kept' 2 (.tail _ (.head _)))
    intro frame member cell saves
    have offset : cell ∈ List.range' (frame.locals - 5) 5 := by
      rw [List.mem_range'_1]
      have ⟨low, high⟩ := saves
      omega
    exact kept' cell (.tail _ (.tail _ (List.mem_flatMap.mpr ⟨frame, member, offset⟩)))

/-- Frames in memory down to an outermost one. Each lies above its caller's locals and holds its
caller's registers. -/
inductive Frames (memory : Memory) (outer : Frame) : List Frame → Prop
  | outer : Frames memory outer [outer]
  | inner {frame caller : Frame} {frames : List Frame} (apart : caller.locals ≤ frame.argument)
      (room : frame.argument + 5 ≤ frame.locals) (bound : frame.locals ≤ 32768)
      (locals : (memory.read (frame.locals - 4)).toNat = caller.locals)
      (argument : (memory.read (frame.locals - 3)).toNat = caller.argument)
      (callers : Frames memory outer (caller :: frames)) :
      Frames memory outer (frame :: caller :: frames)

namespace Frames

variable {memory next : Memory} {outer frame : Frame} {frames : List Frame}

theorem congr (stacked : Frames memory outer frames)
    (same : ∀ frame ∈ frames, ∀ cell, frame.Saves cell → next.read cell = memory.read cell) :
    Frames next outer frames := by
  induction stacked with
  | outer => exact .outer
  | @inner frame caller frames apart room bound locals argument _ ih =>
    have saved := same frame (.head _)
    refine .inner apart room bound ?_ ?_ (ih fun other member => same other (.tail _ member))
    · rw [saved _ ⟨by omega, by omega⟩, locals]
    · rw [saved _ ⟨by omega, by omega⟩, argument]

theorem caller {caller : Frame} (stacked : Frames memory outer (frame :: caller :: frames)) :
    caller.locals ≤ frame.argument ∧ frame.argument + 5 ≤ frame.locals ∧ frame.locals ≤ 32768 ∧
      Frame.mk (memory.read (frame.locals - 4)).toNat (memory.read (frame.locals - 3)).toNat =
        caller ∧ Frames memory outer (caller :: frames) := by
  cases stacked with
  | inner apart room bound locals argument callers =>
    exact ⟨apart, room, bound, congrArg₂ Frame.mk locals argument, callers⟩

theorem outer_mem (stacked : Frames memory outer frames) : outer ∈ frames := by
  induction stacked with
  | outer => exact .head _
  | inner _ _ _ _ _ _ ih => exact .tail _ ih

/-- The outermost frame is the lowest and the innermost the highest. -/
theorem bounds (stacked : Frames memory outer (frame :: frames)) :
    ∀ other ∈ frame :: frames, outer.locals ≤ other.locals ∧ other.locals ≤ frame.locals := by
  generalize shape : frame :: frames = all at stacked
  induction stacked generalizing frame frames with
  | outer =>
    obtain ⟨rfl, rfl⟩ := List.cons.inj shape
    intro other member
    obtain rfl := List.mem_singleton.mp member
    exact ⟨Nat.le_refl _, Nat.le_refl _⟩
  | inner apart room _ _ _ _ ih =>
    obtain ⟨rfl, rfl⟩ := List.cons.inj shape
    have below := ih rfl
    intro other member
    have first := below _ (.head _)
    rcases List.mem_cons.mp member with rfl | member
    · omega
    · have := below other member
      omega

end Frames

theorem current_of_called {memory next : Memory} {pointer address : Word} {arguments : Nat}
    (called : Called memory next pointer address arguments) (above : arguments ≤ pointer.toNat)
    (room : pointer.toNat + 5 ≤ 32768) :
    Frame.current next = ⟨pointer.toNat + 5, pointer.toNat - arguments⟩ := by
  have argument : (BitVec.ofNat 16 arguments).toNat = arguments := by
    rw [BitVec.toNat_ofNat]
    omega
  have locals : (pointer + 5).toNat = pointer.toNat + 5 :=
    Vm.toNat_add_ofNat (show pointer.toNat + 5 < 65536 by omega)
  rw [Frame.current, called.lcl, called.arg, locals,
    BitVec.toNat_sub_of_le (BitVec.le_def.mpr (argument.symm ▸ above)), argument]

theorem Executes.of_count {rom : Array Word} {i : Vm.Instruction} {cpu next : Cpu}
    (ran : next = (Cpu.run rom (size i) cpu).2) (whole : (Cpu.run rom (size i) cpu).1 = size i) :
    Executes rom i cpu next :=
  Prod.ext whole ran.symm

theorem Executes.unique {rom : Array Word} {i : Vm.Instruction} {cpu next next' : Cpu}
    (first : Executes rom i cpu next) (second : Executes rom i cpu next') : next = next' :=
  (Prod.mk.inj (first.symm.trans second)).2

/-- What holds between a call and its return: the frames are in memory, the registers point to the
innermost one, and the outermost one is as the call left it. -/
structure Inside (entered : Memory) (n : Nesting) : Prop where
  frames : Frames n.cpu.ram (.current entered) n.frames
  current : n.frames.head? = some (.current n.cpu.ram)
  saved : ∀ cell, (Frame.current entered).Saves cell → n.cpu.ram.read cell = entered.read cell

section Nested

variable {bootstrap : Bool} {commands : List Located} {program : List Instruction}
  {rom : Array Word} {entered : Memory} {n n' : Nesting}

theorem Inside.enter (cpu : Cpu) : Inside cpu.ram ⟨cpu, [.current cpu.ram]⟩ :=
  ⟨.outer, rfl, fun _ _ => rfl⟩

theorem Inside.above (inside : Inside entered n) :
    (Frame.current entered).locals ≤ (n.cpu.ram.read 1).toNat := by
  obtain ⟨⟨cpu, frames⟩, stacked, current, saved⟩ := n, inside
  cases frames with
  | nil => contradiction
  | cons frame rest =>
    obtain head : frame = .current cpu.ram := Option.some.inj current
    exact head ▸ (stacked.bounds frame (.head _)).1

theorem Inside.called {cpu next : Cpu} {frames : List Frame} {address : Word} {arguments : Nat}
    (inside : Inside entered ⟨cpu, frames⟩) (low : 21 ≤ (Frame.current entered).locals)
    (called : Called cpu.ram next.ram (cpu.ram.read 0) address arguments)
    (above : (cpu.ram.read 1).toNat + arguments ≤ (cpu.ram.read 0).toNat)
    (room : (cpu.ram.read 0).toNat + 5 ≤ 32768) :
    Inside entered ⟨next, .current next.ram :: frames⟩ := by
  obtain ⟨stacked, current, saved⟩ := inside
  cases frames with
  | nil => contradiction
  | cons frame rest =>
    obtain head : frame = .current cpu.ram := Option.some.inj current
    have kept : ∀ other ∈ frame :: rest, ∀ cell, other.Saves cell →
        next.ram.read cell = cpu.ram.read cell := by
      intro other member cell ⟨first, last⟩
      have ⟨above, below⟩ := stacked.bounds other member
      simp only [head, Frame.current] at below
      exact called.others cell (by omega) (by omega) (.inl (by omega))
    refine ⟨?_, rfl, fun cell saves =>
      (kept _ stacked.outer_mem cell saves).trans (saved cell saves)⟩
    have callers := stacked.congr kept
    simp only [head] at callers ⊢
    rw [current_of_called called (by omega) room]
    refine .inner ?_ ?_ room ?_ ?_ callers <;> simp only [Frame.current]
    · omega
    · omega
    · rw [← called.savedLcl]
      rfl
    · rw [← called.savedArg]
      rfl

theorem Inside.returned {cpu next : Cpu} {frame caller : Frame} {frames : List Frame}
    (inside : Inside entered ⟨cpu, frame :: caller :: frames⟩)
    (low : 21 ≤ (Frame.current entered).locals) (returned : Returned cpu.ram next.ram) :
    Inside entered ⟨next, caller :: frames⟩ := by
  obtain ⟨stacked, current, saved⟩ := inside
  obtain head : frame = .current cpu.ram := Option.some.inj current
  obtain ⟨apart, room, bound, saves, callers⟩ := stacked.caller
  have kept : ∀ other ∈ caller :: frames, ∀ cell, other.Saves cell →
      next.ram.read cell = cpu.ram.read cell := by
    intro other member cell ⟨first, last⟩
    have ⟨above, below⟩ := callers.bounds other member
    simp only [head, Frame.current] at apart room bound
    exact returned.others cell (by omega) (by omega) (by omega)
  refine ⟨callers.congr kept, ?_, fun cell saves =>
    (kept _ callers.outer_mem cell saves).trans (saved cell saves)⟩
  rw [Frame.current, returned.lcl, returned.arg, ← saves, head]
  rfl

/-- One step. -/
theorem Inside.advance (linked : Linked bootstrap commands program)
    (same : ∀ limit cpu, Cpu.run rom limit cpu = interpret program limit cpu)
    (low : 21 ≤ (Frame.current entered).locals) (inside : Inside entered n)
    (advances : Advances bootstrap commands rom n n') : Inside entered n' := by
  cases advances with
  | word stepped locals argument kept =>
    obtain ⟨stacked, current, saved⟩ := inside
    refine ⟨stacked.congr kept, ?_, fun cell saves =>
      (kept _ stacked.outer_mem cell saves).trans (saved cell saves)⟩
    rw [Frame.current, locals, argument]
    exact current
  | @call cpu next frames index function arguments before above room executes =>
    have deep : (Frame.current entered).locals ≤ (cpu.ram.read 1).toNat := inside.above
    obtain ⟨next, executed, called, _⟩ := executes_call linked same before (by omega) room
    obtain rfl := executes.unique executed
    exact inside.called low called above room
  | @«return» cpu next frame caller frames index before above room executes =>
    have deep : (Frame.current entered).locals ≤ (cpu.ram.read 1).toNat := inside.above
    obtain ⟨apart, below, bound, _, callers⟩ := inside.frames.caller
    have high := (callers.bounds caller (.head _)).1
    obtain head : frame = .current cpu.ram := Option.some.inj inside.current
    simp only [head, Frame.current] at *
    obtain ⟨next, executed, _, returned⟩ := executes_return linked same before (by omega) below
      bound (by omega) room
    obtain rfl := executes.unique executed
    exact inside.returned low returned

/-- Any number of steps. -/
theorem Inside.advances (linked : Linked bootstrap commands program)
    (same : ∀ limit cpu, Cpu.run rom limit cpu = interpret program limit cpu)
    (low : 21 ≤ (Frame.current entered).locals) (inside : Inside entered n)
    (run : Relation.ReflTransGen (Advances bootstrap commands rom) n n') : Inside entered n' := by
  induction run with
  | refl => exact inside
  | tail _ advances ih => exact ih.advance linked same low advances

end Nested

/-- What the outermost return finds: the registers that the call set and the frame that it made. -/
theorem Inside.outermost {cpu entered before : Cpu} {frame : Frame} {address : Word}
    {arguments : Nat} (above : arguments ≤ (cpu.ram.read 0).toNat)
    (high : (cpu.ram.read 0).toNat + 5 ≤ 32768)
    (called : Called cpu.ram entered.ram (cpu.ram.read 0) address arguments)
    (inside : Inside entered.ram ⟨before, [frame]⟩) :
    (before.ram.read 1).toNat = (cpu.ram.read 0).toNat + 5 ∧
      (before.ram.read 2).toNat = (cpu.ram.read 0).toNat - arguments ∧
      ∀ offset < 5, before.ram.read ((cpu.ram.read 0).toNat + offset) =
        entered.ram.read ((cpu.ram.read 0).toNat + offset) := by
  have outer := current_of_called called above high
  have member := inside.frames.outer_mem
  have current : Frame.current before.ram = .current entered.ram :=
    (Option.some.inj inside.current).symm.trans (List.mem_singleton.mp member).symm
  refine ⟨congrArg Frame.locals (current.trans outer),
    congrArg Frame.argument (current.trans outer), fun offset bound => inside.saved _ ?_⟩
  rw [outer]
  exact ⟨by simp only; omega, by simp only; omega⟩

/-- The state after a call has returned, set against the states before the call and before the
return. -/
structure Resumes (arguments : Nat) (cpu before next : Cpu) : Prop where
  sp : (next.ram.read 0).toNat = (cpu.ram.read 0).toNat - arguments + 1
  result : next.ram.read ((next.ram.read 0).toNat - 1) =
    before.ram.read ((before.ram.read 0).toNat - 1)
  lcl : next.ram.read 1 = cpu.ram.read 1
  arg : next.ram.read 2 = cpu.ram.read 2
  this : next.ram.read 3 = cpu.ram.read 3
  that : next.ram.read 4 = cpu.ram.read 4

/-- After its matching return, a call has replaced its arguments by the result and changed nothing
else that its caller relies on. -/
theorem call_resumes {bootstrap annotate : Bool} {units : List (String × String)}
    (names : ∀ unit ∈ units, Vm.isSymbol unit.1)
    (translated : (translation bootstrap annotate units).failure? = none)
    (assembled : (machineCode bootstrap annotate units).failure? = none) {index : Nat}
    {function : String} {arguments : UInt16} {cpu : Cpu}
    (calls : Before bootstrap (located units) cpu index (.call function arguments))
    (low : 16 + arguments.toNat ≤ (cpu.ram.read 0).toNat)
    (high : (cpu.ram.read 0).toNat + 5 ≤ 32768) :
    let rom := (machineCode bootstrap annotate units).done.toArray
    ∃ entered, Executes rom (.call function arguments) cpu entered ∧
      ∀ (before : Cpu) (frame : Frame) (back : Nat),
        Relation.ReflTransGen (Advances bootstrap (located units) rom)
          ⟨entered, [.current entered.ram]⟩ ⟨before, [frame]⟩ →
        Before bootstrap (located units) before back .return →
        (before.ram.read 1).toNat < (before.ram.read 0).toNat →
        (before.ram.read 0).toNat ≤ 32768 →
        ∃ next, Executes rom .return before next ∧
          next.pc = position bootstrap (located units) (index + 1) ∧
          Resumes arguments.toNat cpu before next := by
  obtain ⟨program, linked, same⟩ := exists_linked names translated assembled
  obtain ⟨entered, executes, called, loadable⟩ := executes_call linked same calls (by omega) high
  refine ⟨entered, executes, ?_⟩
  intro before frame back run returns above room
  have outer := current_of_called called (by omega) high
  have inside := (Inside.enter entered).advances linked same
    (by rw [outer]; exact show 21 ≤ (cpu.ram.read 0).toNat + 5 by omega) run
  obtain ⟨locals, argument, saved⟩ := inside.outermost (by omega) high called
  obtain ⟨next, executes, pc, returned⟩ := executes_return linked same returns (by omega)
    (by omega) (by omega) (by omega) room
  have sp : (next.ram.read 0).toNat = (before.ram.read 2).toNat + 1 := by
    rw [returned.sp]
    exact Vm.toNat_add_ofNat (show (before.ram.read 2).toNat + 1 < 65536 by omega)
  refine ⟨next, executes, ?_, ?_, ?_, ?_, ?_, ?_, ?_⟩
  · rw [pc, locals, Nat.add_sub_cancel, ← Nat.add_zero (cpu.ram.read 0).toNat, saved 0 (by omega),
      Nat.add_zero, called.returnAddress, BitVec.toNat_ofNat]
    simp only [maxAddress] at loadable
    omega
  · rw [sp, argument]
  · rw [sp, Nat.add_sub_cancel, returned.result]
  · rw [returned.lcl, locals]
    exact (saved 1 (by omega)).trans called.savedLcl
  · rw [returned.arg, locals]
    exact (saved 2 (by omega)).trans called.savedArg
  · rw [returned.this, locals]
    exact (saved 3 (by omega)).trans called.savedThis
  · rw [returned.that, locals]
    exact (saved 4 (by omega)).trans called.savedThat

/-- A function that returns the result of another one, which returns its only local. -/
def callZero : List (String × String) :=
  [("Main", "call Main.outer 0\nfunction Main.outer 0\ncall Main.zero 0\nreturn\n" ++
    "function Main.zero 1\nreturn")]

theorem call_resumes_callZero :
    let rom := (machineCode false false callZero).done.toArray
    let cpu : Cpu := ⟨0, 0, 0, Memory.zero.write 0 16⟩
    ∃ entered inner before next, Executes rom (.call "Main.outer" 0) cpu entered ∧
      Advances false (located callZero) rom
        ⟨entered, [.current entered.ram]⟩ ⟨inner, [.current inner.ram, .current entered.ram]⟩ ∧
      Relation.ReflTransGen (Advances false (located callZero) rom)
        ⟨inner, [.current inner.ram, .current entered.ram]⟩ ⟨before, [.current entered.ram]⟩ ∧
      Executes rom .return before next ∧ next.pc = position false (located callZero) 1 ∧
      Resumes 0 cpu before next := by
  intro rom cpu
  have evaluated :
      ∃ entered : Cpu, entered = (Cpu.run rom (size (.call "Main.outer" 0)) cpu).2 ∧
      ∃ inner : Cpu, inner = (Cpu.run rom (size (.call "Main.zero" 0)) entered).2 ∧
      ∃ held : Cpu, held = (Cpu.run rom 5 inner).2 ∧
      ∃ before : Cpu, before = (Cpu.run rom (size .return) held).2 ∧
        ((translation false false callZero).failure? = none ∧
          (machineCode false false callZero).failure? = none) ∧
        ((entered.ram.read 1).toNat + (0 : UInt16).toNat ≤ (entered.ram.read 0).toNat ∧
          (entered.ram.read 0).toNat + 5 ≤ 32768 ∧
          (Cpu.run rom (size (.call "Main.zero" 0)) entered).1 = size (.call "Main.zero" 0)) ∧
        Keeps rom [.current inner.ram, .current entered.ram] inner 5 ∧
        ((held.ram.read 1).toNat < (held.ram.read 0).toNat ∧ (held.ram.read 0).toNat ≤ 32768 ∧
          (Cpu.run rom (size .return) held).1 = size .return) ∧
        ((before.ram.read 1).toNat < (before.ram.read 0).toNat ∧
          (before.ram.read 0).toNat ≤ 32768) ∧
        entered.pc = position false (located callZero) 2 ∧
        held.pc = position false (located callZero) 5 ∧
        before.pc = position false (located callZero) 3 :=
    ⟨_, rfl, _, rfl, _, rfl, _, rfl, by decide +kernel⟩
  obtain ⟨entered, entering, inner, calling, held, pushing, before, returning, accepted,
    ⟨argument, space, called⟩, kept, ⟨result, top, returned⟩, ⟨outcome, room⟩, counters⟩ := evaluated
  obtain ⟨translated, assembled⟩ := accepted
  obtain ⟨atCall, atReturn, atEnd⟩ := counters
  have calls : Before false (located callZero) cpu 0 (.call "Main.outer" 0) :=
    ⟨by decide +kernel, by decide +kernel⟩
  obtain ⟨_, executes, resumes⟩ := call_resumes (by decide +kernel) translated assembled calls
    (by decide +kernel) (by decide +kernel)
  obtain rfl := entering.trans (congrArg Prod.snd executes)
  have call : Advances false (located callZero) rom ⟨entered, [.current entered.ram]⟩
      ⟨inner, [.current inner.ram, .current entered.ram]⟩ :=
    have before : Before false (located callZero) entered 2 (.call "Main.zero" 0) :=
      ⟨by decide +kernel, atCall⟩
    .call before argument space (.of_count calling called)
  have pushes : Relation.ReflTransGen (Advances false (located callZero) rom)
      ⟨inner, [.current inner.ram, .current entered.ram]⟩
      ⟨held, [.current inner.ram, .current entered.ram]⟩ :=
    pushing ▸ advances_words kept
  have returns : Advances false (located callZero) rom
      ⟨held, [.current inner.ram, .current entered.ram]⟩ ⟨before, [.current entered.ram]⟩ :=
    .return ⟨by decide +kernel, atReturn⟩ result top (.of_count returning returned)
  have back := pushes.tail returns
  obtain ⟨next, leaves, pc, resumed⟩ :=
    resumes _ _ 3 (back.head call) ⟨by decide +kernel, atEnd⟩ outcome room
  exact ⟨entered, inner, before, next, executes, call, back, leaves, pc, resumed⟩

end HackToolchain.Codegen
