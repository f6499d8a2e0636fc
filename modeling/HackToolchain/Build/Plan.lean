import HackToolchain.Files.Path
import HackToolchain.Files.Storage
import HackToolchain.Vm.Error

/-! Which files a run reads and where its output goes. -/
namespace HackToolchain.Build

open Files (Path Reason Storage)

/-- Everything that can end a run. -/
inductive Error where
  | notVmFile (path : Path)
  | noSources (path : Path)
  | invalidName (path : Path)
  | io (path : Path) (reason : Reason)
  | unit (path : Path) (e : Vm.Error)
  deriving DecidableEq

namespace Error

def message : Error → String
  | .notVmFile path => s!"{path.display}: not a .vm file"
  | .noSources path => s!"{path.display}: no .vm files to translate"
  | .invalidName path => s!"{path.display}: file name cannot name statics and labels"
  | .io path reason => s!"{path.display}: {reason.message}"
  | .unit path e => s!"{path.display}: {e.message}"

/-- The message and the messages of what lies behind the error, outermost first. -/
def causes (e : Error) : List String :=
  e.message :: match e with
    | .io _ reason => [reason.message]
    | .unit _ (.write w) => [(Vm.Error.write w).message, w.reason]
    | .unit _ inner => [inner.message]
    | _ => []

end Error

structure Plan where
  sources : List Path
  output : Path
  deriving DecidableEq

/-- The name under which a source's statics and labels are known. -/
def unitName? (path : Path) : Option String :=
  ((Path.stem? path).bind Path.text?).filter Vm.isSymbol

/-- The first source whose name cannot stand in assembly is at fault. -/
def checkNames (sources : List Path) : Except Error Unit :=
  match sources.find? fun path => (unitName? path).isNone with
  | some path => .error (.invalidName path)
  | none => .ok ()

namespace Plan

/-- The plan for a directory that holds the source files `names` and is called `ownName?` in the
directory above it. Sources are read in the order of their names. -/
def ofDirectory (source : Path) (names : List Path) (ownName? : Option Path) :
    Except Error Plan := do
  if names = [] then throw (.noSources source)
  let sources := (names.mergeSort (· ≤ ·)).map (Path.join source)
  checkNames sources
  match ownName? with
  | none => throw (.noSources source)
  | some name => return ⟨sources, Path.withExtension (Path.join source name) "asm"⟩

def ofFile (source : Path) : Except Error Plan := do
  checkNames [source]
  return ⟨[source], Path.withExtension source "asm"⟩

end Plan

def isVmFile [Monad m] [Storage m] (path : Path) : m Bool := do
  return (← Storage.isFile path) && Path.extension? path = some (Path.ofText "vm")

/-- A directory is a program of all its source files; anything else has to be one source file. -/
def plan [Monad m] [Storage m] (source : Path) : m (Except Error Plan) := do
  if ← Storage.isDirectory source then
    match ← Storage.entries source with
    | .error reason => return .error (.io source reason)
    | .ok names =>
      let names ← names.filterM fun name => isVmFile (Path.join source name)
      return Plan.ofDirectory source names (← Storage.ownName? source)
  else if ← isVmFile source then
    return Plan.ofFile source
  else
    return .error (.notVmFile source)

end HackToolchain.Build
