import HackToolchain.CommandLine.Assembler
import HackToolchain.CommandLine.VmTranslator

/-! The command line. Its first argument names one of the programs, the others are for that program,
which works on the files of the machine it runs on. -/
namespace HackToolchain.CommandLine

open Files (Path Reason Storage)

def reasonOf (e : IO.Error) : Reason :=
  match e with
  | .noFileOrDirectory .. => .notFound
  | .inappropriateType _ code _ => if code = 21 ∨ code = -21 then .isDirectory else .notDirectory
  | _ => .other (toString e)

def attempt (action : IO α) : IO (Except Reason α) := do
  match ← action.toBaseIO with
  | .ok value => return .ok value
  | .error e => return .error (reasonOf e)

def holds (action : IO Bool) : IO Bool := do
  match ← action.toBaseIO with
  | .ok answer => return answer
  | .error _ => return false

/-- The paths that can be used are those that are texts. -/
def nameOf (path : Path) : IO String :=
  match path.text? with
  | some text => return text
  | none => throw (IO.userError "Invalid argument (os error 22)")

instance : Storage IO where
  isFile path := holds do
    return (← (← IO.FS.realPath (← nameOf path)).metadata).type == .file
  isDirectory path := holds do
    (← IO.FS.realPath (← nameOf path)).isDir
  entries path := attempt do
    return (← (← IO.FS.realPath (← nameOf path)).readDir).toList.map (Path.ofText ·.fileName)
  ownName? path := do
    match ← attempt do IO.FS.realPath (← nameOf path) with
    | .ok directory => return directory.fileName.map Path.ofText
    | .error _ => return none
  read path := attempt do IO.FS.readBinFile (← nameOf path)
  create path := attempt do IO.FS.writeBinFile (← nameOf path) .empty
  append path bytes := attempt do
    let file ← IO.FS.Handle.mk (← nameOf path) .append
    file.write bytes
    file.flush
  remove path := discard (attempt do IO.FS.removeFile (← nameOf path))

def programs : List (Program IO) := [VmTranslator.program, Assembler.program]

def finish (exit : Exit) : IO UInt32 := do
  IO.print exit.stdout
  IO.eprint exit.report
  return exit.code

def start : List String → IO UInt32
  | [] => finish .rejected
  | name :: args =>
    match programs.find? (·.name = name) with
    | some program => do finish (← program.execute args)
    | none => finish .rejected

end HackToolchain.CommandLine

def main (args : List String) : IO UInt32 :=
  HackToolchain.CommandLine.start args
