import HackToolchain.Build.Plan
import HackToolchain.Codegen.Writer
import HackToolchain.Files.BlockBuffer

/-! A whole run: the units of a plan, one after the other, into one output file. The file is made
before any source is read and is gone again if the run fails. -/
namespace HackToolchain.Build

open Codegen (Writer Outcome)
open Files

structure Request where
  source : Path
  /-- Takes the place of the planned output. -/
  output? : Option Path
  /-- Whether the program starts itself. -/
  bootstrap : Bool
  annotate : Bool

/-- A run under way: the writer, and the written bytes that have not reached the file. -/
structure Session where
  writer : Writer
  held : ByteArray

def Session.start (r : Request) : Session where
  writer := Writer.new .unlimited r.annotate
  held := .empty

/-- Bytes that reach the output file. Nothing is done if there are none. -/
def send [Monad m] [Storage m] (output : Path) (bytes : ByteArray) :
    m (Except Vm.WriteError Unit) := do
  if bytes.isEmpty then return .ok ()
  match ← Storage.append output bytes with
  | .ok () => return .ok ()
  | .error reason => return .error (.refused reason.message)

/-- Writes the code that `next` adds, as far as it gets; `path` is to blame if it fails, or if the file
takes no more. -/
def extend [Monad m] [Storage m] (output path : Path) (s : Session)
    (next : Writer → Outcome) : m (Except Error Session) := do
  let ⟨writer, held⟩ := s
  let before := writer.sink.lines.size
  let o := next writer
  let (reached, held) := BlockBuffer.push held (o.writer.sink.piecesFrom before)
  match ← send output reached, o.failure? with
  | .error e, _ => return .error (.unit path (.write e))
  | .ok (), some e => return .error (.unit path e)
  | .ok (), none => return .ok ⟨o.writer, held⟩

/-- Reads and writes the units in order, up to the first that fails. -/
def writeUnits [Monad m] [Storage m] (output : Path) :
    List Path → Session → m (Except Error Session)
  | [], s => return .ok s
  | path :: rest, s => do
    match ← readText path with
    | .error reason => return .error (.io path reason)
    | .ok source =>
      match unitName? path with
      | none => return .error (.invalidName path)
      | some name =>
        match ← extend output path s fun w => (w.setFileName name).unit source with
        | .error e => return .error e
        | .ok s => writeUnits output rest s

/-- Sends out what is held back at the end. The output is to blame if the file does not take it. -/
def finish [Monad m] [Storage m] (output : Path) (s : Session) : m (Except Error Unit) := do
  match ← s.writer.finish fun _ => send output s.held with
  | .ok _ => return .ok ()
  | .error e => return .error (.unit output e)

def writeProgram [Monad m] [Storage m] (r : Request) (sources : List Path) (output : Path) :
    m (Except Error Unit) := do
  let start ← if r.bootstrap then extend output r.source (.start r) Writer.bootstrap
    else pure (.ok (.start r))
  match start with
  | .error e => return .error e
  | .ok s =>
    match ← writeUnits output sources s with
    | .error e => return .error e
    | .ok s => finish output s

/-- Answers with the path of the output. -/
def run [Monad m] [Storage m] (r : Request) : m (Except Error Path) := do
  match ← plan r.source with
  | .error e => return .error e
  | .ok plan =>
    let output := r.output?.getD plan.output
    match ← Storage.create output with
    | .error reason => return .error (.io output reason)
    | .ok () =>
      match ← writeProgram r plan.sources output with
      | .error e =>
        Storage.remove output
        return .error e
      | .ok () => return .ok output

end HackToolchain.Build
