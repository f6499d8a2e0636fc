import Mathlib
import HackToolchain.Machine.Memory
import HackToolchain.Vm.Instruction

/-! What commands do, said of data memory and the number of the next command. Nothing is said of
code, except that a return address is where the code of a command is to start. -/
namespace HackToolchain.Vm

open Machine (Word Memory)

/-- A command with the names that it depends on: its file, which its statics belong to, and the
function or file that its labels belong to. -/
structure Located where
  file : String
  scope : String
  instruction : Instruction
  deriving DecidableEq

/-- The current function after a command. -/
def entered (function? : Option String) : Instruction → Option String
  | .function name _ => some name
  | _ => function?

/-- Commands, each with its file, at their places. A function reaches to the next one, across
files. -/
def locate (function? : Option String) : List (String × Instruction) → List Located
  | [] => []
  | (file, i) :: rest =>
    ⟨file, (entered function? i).getD file, i⟩ :: locate (entered function? i) rest

namespace Register

abbrev sp : Word := 0

abbrev lcl : Word := 1

abbrev arg : Word := 2

abbrev this : Word := 3

abbrev that : Word := 4

end Register

open Register

/-- The two cells that code keeps intermediate values in. No command may use them. -/
def isScratch (address : Nat) : Bool :=
  address % 32768 = 13 || address % 32768 = 14

def load? (memory : Memory) (address : Word) : Option Word :=
  if isScratch address.toNat then none else some (memory.read address.toNat)

def store? (memory : Memory) (address value : Word) : Option Memory :=
  if isScratch address.toNat then none else some (memory.write address.toNat value)

def push? (memory : Memory) (value : Word) : Option Memory := do
  let memory ← store? memory (← load? memory sp) value
  store? memory sp ((← load? memory sp) + 1)

def pop? (memory : Memory) : Option (Word × Memory) := do
  let memory ← store? memory sp ((← load? memory sp) - 1)
  return (← load? memory (← load? memory sp), memory)

/-- All ones for true and zero for false. -/
def truth (holds : Bool) : Word :=
  if holds then -1 else 0

/-- Arithmetic wraps, and comparisons look at the wrapped difference. -/
def operate? (memory : Memory) (op : ArithmeticOp) : Option Memory :=
  let unary (f : Word → Word) := do
    let (x, memory) ← pop? memory
    push? memory (f x)
  let binary (f : Word → Word → Word) := do
    let (y, memory) ← pop? memory
    let (x, memory) ← pop? memory
    push? memory (f x y)
  match op with
  | .add => binary (· + ·)
  | .sub => binary (· - ·)
  | .neg => unary (- ·)
  | .and => binary (· &&& ·)
  | .or => binary (· ||| ·)
  | .not => unary (~~~ ·)
  | .eq => binary fun x y => truth ((x - y).toInt = 0)
  | .gt => binary fun x y => truth (0 < (x - y).toInt)
  | .lt => binary fun x y => truth ((x - y).toInt < 0)

/-- The cell of a segment. Constants have none. -/
def cell? (static : Nat) (memory : Memory) (index : Word) : Segment → Option Word
  | .local => return (← load? memory lcl) + index
  | .argument => return (← load? memory arg) + index
  | .this => return (← load? memory this) + index
  | .that => return (← load? memory that) + index
  | .temp => return 5 + index
  | .pointer => return 3 + index
  | .static => return BitVec.ofNat 16 static
  | .constant => none

def pushFrom? (static : Nat) (memory : Memory) (index : Word) : Segment → Option Memory
  | .constant => push? memory index
  | segment => do push? memory (← load? memory (← cell? static memory index segment))

/-- The cell is found before anything is popped. -/
def popInto? (static : Nat) (memory : Memory) (index : Word) (segment : Segment) :
    Option Memory := do
  let cell ← cell? static memory index segment
  let (value, memory) ← pop? memory
  store? memory cell value

def enter? (memory : Memory) (locals : Nat) : Option Memory :=
  (List.replicate locals 0).foldlM push? memory

/-- Pushes a frame above the arguments and makes it the current one. -/
def call? (memory : Memory) (returnAddress : Word) (arguments : Nat) : Option Memory := do
  let memory ← push? memory returnAddress
  let memory ← [lcl, arg, this, that].foldlM (fun memory register => do
    push? memory (← load? memory register)) memory
  let memory ← store? memory arg ((← load? memory sp) - BitVec.ofNat 16 (arguments + 5))
  store? memory lcl (← load? memory sp)

/-- Puts the result where the arguments were and takes the current frame away; gives the return
address that the frame held. -/
def return? (memory : Memory) : Option (Word × Memory) := do
  let frame ← load? memory lcl
  let address ← load? memory (frame - 5)
  let (value, memory) ← pop? memory
  let memory ← store? memory (← load? memory arg) value
  let memory ← store? memory sp ((← load? memory arg) + 1)
  let memory ← [(that, 1), (this, 2), (arg, 3), (lcl, 4)].foldlM (fun memory (register, back) => do
    store? memory register (← load? memory (frame - back))) memory
  return (address, memory)

/-- The static that a command uses, with its file. -/
def Located.static? (command : Located) : Option (String × UInt16) :=
  match command.instruction with
  | .push .static index | .pop .static index => some (command.file, index)
  | _ => none

/-- Every use of a static, in order. -/
def staticUses (program : List Located) : List (String × UInt16) :=
  program.filterMap Located.static?

/-- Statics are given cells in the order of their first uses. -/
def staticAddress (program : List Located) (file : String) (index : UInt16) : Nat :=
  16 + ((staticUses program).takeWhile (· ≠ (file, index))).eraseDups.length

def labelIndex? (program : List Located) (scope name : String) : Option Nat :=
  program.findIdx? fun command => command.scope = scope && command.instruction = .label name

def Instruction.isFunction (name : String) : Instruction → Bool
  | .function other _ => other = name
  | _ => false

def functionIndex? (program : List Located) (name : String) : Option Nat :=
  program.findIdx? (·.instruction.isFunction name)

/-- The first command whose code starts at an address, or the end of the program. -/
def addressIndex? (program : List Located) (position : Nat → Nat) (address : Word) : Option Nat :=
  (List.range (program.length + 1)).find? fun index => position index = address.toNat

/-- Every jump of a command has somewhere to go. -/
def Located.Resolved (program : List Located) (command : Located) : Prop :=
  match command.instruction with
  | .goto target | .ifGoto target => (labelIndex? program command.scope target).isSome
  | .call function _ => (functionIndex? program function).isSome
  | _ => True

instance (program : List Located) (command : Located) : Decidable (command.Resolved program) := by
  unfold Located.Resolved
  split <;> infer_instance

structure State where
  memory : Memory
  next : Nat

/-- The effect of the next command. -/
def step? (program : List Located) (position : Nat → Nat) (s : State) : Option State := do
  let command ← program[s.next]?
  match command.instruction with
  | .arithmetic op => return ⟨← operate? s.memory op, s.next + 1⟩
  | .push segment index =>
    let static := staticAddress program command.file index
    return ⟨← pushFrom? static s.memory (.ofNat 16 index.toNat) segment, s.next + 1⟩
  | .pop segment index =>
    let static := staticAddress program command.file index
    return ⟨← popInto? static s.memory (.ofNat 16 index.toNat) segment, s.next + 1⟩
  | .label _ => return ⟨s.memory, s.next + 1⟩
  | .goto target => return ⟨s.memory, ← labelIndex? program command.scope target⟩
  | .ifGoto target =>
    let (value, memory) ← pop? s.memory
    if value = 0 then return ⟨memory, s.next + 1⟩
    else return ⟨memory, ← labelIndex? program command.scope target⟩
  | .function _ locals => return ⟨← enter? s.memory locals.toNat, s.next + 1⟩
  | .call function arguments =>
    let returnAddress := .ofNat 16 (position (s.next + 1))
    return ⟨← call? s.memory returnAddress arguments.toNat, ← functionIndex? program function⟩
  | .return =>
    let (address, memory) ← return? s.memory
    return ⟨memory, ← addressIndex? program position address⟩

/-- The state after a number of commands. -/
def run? (program : List Located) (position : Nat → Nat) : Nat → State → Option State
  | 0, s => some s
  | count + 1, s => do run? program position count (← step? program position s)

end HackToolchain.Vm
