import HackToolchain.CommandLine.Arguments

/-! What all programs of the command line have in common. -/
namespace HackToolchain.CommandLine

/-- How a program ends, what it prints, and its report of an error. -/
structure Exit where
  code : UInt32
  stdout : String
  report : String
  deriving DecidableEq

namespace Exit

def success (stdout : String) : Exit := ⟨0, stdout, ""⟩

def rejected : Exit := ⟨2, "", ""⟩

/-- One cause in a report. A mark stands before its first line, and the lines after it are indented
as far as the mark is wide. -/
def indented (mark text : String) : String :=
  let indent := String.ofList (List.replicate mark.length ' ')
  mark ++ ("\n" ++ indent).intercalate ((text.toList.splitOn '\n').map String.ofList)

/-- What was being done, and why it failed: causes are numbered if there are several. -/
def failure (context : String) (causes : List String) : Exit :=
  let marked : List String := match causes with
    | [cause] => [indented "    " cause]
    | _ => (causes.zipIdx 0).map fun (cause, n) => indented ("    " ++ n.repr ++ ": ") cause
  let report := if causes = [] then "" else "\nCaused by:\n" ++ String.join (marked.map (· ++ "\n"))
  ⟨1, "", s!"Error: {context}\n" ++ report⟩

end Exit

/-- A program with its name, its options and what it does with its arguments. -/
structure Program (m : Type → Type) where
  name : String
  usage : String
  grammar : Grammar
  run : Arguments → m Exit

def Program.execute [Monad m] (p : Program m) (texts : List String) : m Exit :=
  match Arguments.parse p.grammar texts with
  | .ok a => p.run a
  | .error .rejected => return .rejected
  | .error .help => return .success p.usage
  | .error .version => return .success s!"{p.name} 0.1.0\n"

/-- The options that every program has. -/
def commonOptions : List OptionSpec := [⟨"help", some 'h', .help⟩, ⟨"version", some 'V', .version⟩]

end HackToolchain.CommandLine
