import HackToolchain.Codegen.Scope
import HackToolchain.Codegen.Sequence
import HackToolchain.Codegen.Sink
import HackToolchain.Progress

/-! Writing the code of commands and units to a stream. An instruction is worked on step by step: it is
checked, label numbers are drawn and labels taken when the code gets to them, and lines go out one after
the other. A writer can be used on after a failure, with whatever state it then has. -/
namespace HackToolchain.Codegen

open Assembly (Instruction Jump)
open Vm (CodeError Error Segment WriteError)

structure Writer where
  scope : Scope
  sink : Sink
  /-- Whether each command is shown in a comment above its code. -/
  annotate : Bool

/-- A writer after an operation, and the failure that ended the operation early. -/
structure Outcome where
  writer : Writer
  failure? : Option Error

namespace Outcome

/-- The next operation, unless this one failed. -/
def andThen (o : Outcome) (next : Writer → Outcome) : Outcome :=
  match o.failure? with
  | none => next o.writer
  | some _ => o

end Outcome

/-- Work on a writer. A failure ends it, and what was done before stays done. -/
abbrev Writing := EStateM Error Writer

namespace Writing

def outcome (work : Writing Unit) (w : Writer) : Outcome :=
  match work w with
  | .ok () after => ⟨after, none⟩
  | .error e after => ⟨after, some e⟩

def refuse (e : CodeError) : Writing α :=
  throw (.code e)

/-- Writes lines up to the first that does not fit. -/
def send (lines : List Line) : Writing Unit := fun w =>
  match w.sink.put lines with
  | (sink, true) => .ok () { w with sink := sink }
  | (sink, false) => .error (.write .sinkFull) { w with sink := sink }

def write (code : List Instruction) : Writing Unit :=
  send (code.map .code)

/-- Uses up the next label number. -/
def drawLabel : Writing Nat :=
  modifyGet fun w => (w.scope.nextLabel, { w with scope.nextLabel := w.scope.nextLabel + 1 })

/-- Takes a label and says whether it was free. One that was not stays taken. -/
def take (symbol : String) : Writing Bool :=
  modifyGet fun w =>
    if w.scope.defined.contains symbol then (false, w)
    else (true, { w with scope.defined := w.scope.defined.insert symbol })

/-- Writes a label that the program chose. Each can be taken once. -/
def define (symbol : String) : Writing Unit := do
  if ← take symbol then write [.label symbol]
  else refuse (.duplicateLabel symbol)

/-- Makes a function the current one. -/
def enter (function : String) : Writing Unit :=
  modify fun w => { w with scope.function? := some function }

/-- The symbol of a label where the writer stands. -/
def labelSymbol (label : String) : Writing String :=
  return (← get).scope.symbol label

def checked : Except CodeError α → Writing α
  | .ok a => return a
  | .error e => refuse e

/-- Where a cell is, if the segment has it. -/
def cell (segment : Segment) (index : UInt16) : Writing Place := do
  checked (place (← get).scope.fileName segment index)

/-- Pushes the result of a test of the data register. -/
def pushTruth (test : Jump) : Writing Unit := do
  let whenTrue ← drawLabel
  let atEnd ← drawLabel
  write (truth whenTrue atEnd test)
  write (push .d)

def compare (test : Jump) : Writing Unit := do
  write (binary .m .minus .d)
  pushTruth test

def arithmetic : Vm.ArithmeticOp → Writing Unit
  | .add => write (binary .d .plus .m ++ push .d)
  | .sub => write (binary .m .minus .d ++ push .d)
  | .and => write (binary .d .and .m ++ push .d)
  | .or => write (binary .d .or .m ++ push .d)
  | .neg => write (unary .minus)
  | .not => write (unary .not)
  | .eq => compare .eq
  | .gt => compare .gt
  | .lt => compare .lt

/-- A constant is loaded as a number, so it has to be an address. -/
def pushCell (segment : Segment) (index : UInt16) : Writing Unit := do
  match ← cell segment index with
  | .literal =>
    if Assembly.maxAddress < index.toNat then refuse (.indexOutOfRange segment index)
    write [constant index.toNat, copy toD .a]
  | .based register => write (loadBased index.toNat register)
  | .named symbol => write (loadD symbol)
  write (push .d)

def popCell (segment : Segment) (index : UInt16) : Writing Unit := do
  match ← cell segment index with
  | .literal => refuse .popConstant
  | .based register =>
    write (addressBased index.toNat register)
    write popD
    write storeKept
  | .named symbol =>
    write popD
    write (storeD symbol)

def branch (label : String) : Writing Unit := do
  write popD
  write (jumpIf (← labelSymbol label) .d .ne)

def callFunction (function : String) (arguments : UInt16) : Writing Unit := do
  if Assembly.maxAddress < arguments.toNat + frameSize then refuse (.tooManyArguments function)
  write (call (← drawLabel) function arguments.toNat)

/-- The function is entered whether or not its name is free. -/
def enterFunction (name : String) (locals : UInt16) : Writing Unit := do
  enter name
  define name
  write (zeros locals.toNat)

def instruction : Vm.Instruction → Writing Unit
  | .arithmetic op => arithmetic op
  | .push segment index => pushCell segment index
  | .pop segment index => popCell segment index
  | .label label => do define (← labelSymbol label)
  | .goto label => do write (jumpTo (← labelSymbol label))
  | .ifGoto label => branch label
  | .function name locals => enterFunction name locals
  | .call name arguments => callFunction name arguments
  | .return => write leave

/-- The code that starts a program. -/
def bootstrap : Writing Unit := do
  write setStack
  callFunction entryFunction 0

end Writing

namespace Writer

def new (sink : Sink) (annotate : Bool) : Writer := ⟨.empty, sink, annotate⟩

/-- Names the unit being written: its statics, and its labels outside functions. -/
def setFileName (w : Writer) (name : String) : Writer :=
  { w with scope.fileName := name }

def put (w : Writer) (lines : List Line) : Outcome :=
  (Writing.send lines).outcome w

def bootstrap (w : Writer) : Outcome :=
  Writing.bootstrap.outcome w

def emit (w : Writer) (i : Vm.Instruction) : Outcome :=
  (Writing.instruction i).outcome w

/-- Writes an instruction, below its comment if there are to be any. -/
def command (w : Writer) (i : Vm.Instruction) : Outcome :=
  (w.put (if w.annotate then [.comment i] else [])).andThen (emit · i)

def commands (w : Writer) (instructions : List Vm.Instruction) : Outcome :=
  instructions.foldl (fun o i => o.andThen (command · i)) ⟨w, none⟩

/-- Hands back the stream once its last bytes are flushed. -/
def finish [Monad m] (w : Writer) (flush : Sink → m (Except WriteError Unit)) :
    m (Except Error Sink) := do
  match ← flush w.sink with
  | .ok () => return .ok w.sink
  | .error e => return .error (.write e)

end Writer

/-- The instruction of a reading. -/
def ofReading (reading : Vm.Reading) : Except Error Vm.Instruction :=
  match reading.result with
  | .error e => .error (.command e)
  | .ok command => command.toInstruction.mapError .instruction

/-- The instructions of a unit up to its first malformed command. A character outside every token
leaves no instruction at all. -/
def unitInstructions (source : String) : Progress Error Vm.Instruction :=
  match Vm.tokenize source with
  | .error e => ⟨[], some (.lex e)⟩
  | .ok tokens => .ofResults (tokens.readings.map ofReading)

namespace Writer

/-- Writes the code of a unit up to the first command that is malformed or has no code. -/
def unit (w : Writer) (source : String) : Outcome :=
  let instructions := unitInstructions source
  (w.commands instructions.done).andThen fun w => ⟨w, instructions.failure?⟩

end Writer

/-- The assembly of a single unit, without the code that starts a program. -/
def compile (fileName source : String) : Except Error String :=
  let o := ((Writer.new .unlimited false).setFileName fileName).unit source
  match o.failure? with
  | some e => .error e
  | none => (o.writer.finish Sink.flush : Id _).map Sink.text

end HackToolchain.Codegen
