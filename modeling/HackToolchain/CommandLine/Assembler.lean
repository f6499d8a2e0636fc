import HackToolchain.Assembly.Program
import HackToolchain.CommandLine.Program
import HackToolchain.Files.Path
import HackToolchain.Files.Storage

/-! The program that turns assembly into machine code, one file after the other. -/
namespace HackToolchain.CommandLine.Assembler

open Files (Path Storage)

def grammar : Grammar where
  options := commonOptions ++ [⟨"verbose", some 'v', .flag⟩]
  maxOperands? := none

/-- The 16 digits of a word. -/
def binary (w : Machine.Word) : String :=
  String.ofList ((List.range 16).map fun i => if w.getMsbD i then '1' else '0')

/-- Machine code as text: a line for each word. -/
def machineText (words : List Machine.Word) : String :=
  words.foldl (fun text w => text ++ binary w ++ "\n") ""

/-- Assembles one file. Its output is made only once the whole of it has been assembled. -/
def assembleFile [Monad m] [Storage m] (path : Path) : m (Except Exit Unit) := do
  match ← Storage.read path with
  | .error reason => return .error (.failure s!"reading {path.display}" [reason.message])
  | .ok source =>
    match (Assembly.assemble (Assembly.characters source)).toExcept with
    | .error e => return .error (.failure s!"assembling {path.display}" [e.message])
    | .ok words =>
      let output := Path.withExtension path "hack"
      match ← Storage.create output with
      | .error reason => return .error (.failure s!"creating {output.display}" [reason.message])
      | .ok () =>
        match ← Storage.append output (machineText words).toUTF8 with
        | .error reason => return .error (.failure reason.message [])
        | .ok () => return .ok ()

/-- Assembles files in order up to the first that fails. -/
def assembleFiles [Monad m] [Storage m] : List Path → m Exit
  | [] => return .success ""
  | path :: rest => do
    match ← assembleFile path with
    | .error exit => return exit
    | .ok () => assembleFiles rest

def program [Monad m] [Storage m] : Program m where
  name := "assembler"
  usage := "Usage: assembler [-v] SOURCE...\n"
  grammar := grammar
  run a := assembleFiles (a.operands.map Path.ofText)

end HackToolchain.CommandLine.Assembler
