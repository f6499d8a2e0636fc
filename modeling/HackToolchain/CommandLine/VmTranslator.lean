import HackToolchain.Build.Run
import HackToolchain.CommandLine.Program

/-! The program that turns stack-machine code into assembly. -/
namespace HackToolchain.CommandLine.VmTranslator

def grammar : Grammar where
  options := commonOptions ++ [
    ⟨"output", some 'o', .value⟩, ⟨"no-bootstrap", none, .flag⟩, ⟨"annotate", none, .flag⟩,
    ⟨"verbose", some 'v', .count⟩]
  maxOperands? := some 1

def request (a : Arguments) : Build.Request where
  source := Files.Path.ofText (a.operands.headD "")
  output? := (a.value? "output").map Files.Path.ofText
  bootstrap := !a.has "no-bootstrap"
  annotate := a.has "annotate"

def run [Monad m] [Files.Storage m] (a : Arguments) : m Exit := do
  let r := request a
  match ← Build.run r with
  | .ok output => return .success s!"Translation complete. Output is '{output.display}'\n"
  | .error e => return .failure s!"translating {r.source.display}" e.causes

def program [Monad m] [Files.Storage m] : Program m where
  name := "vmtranslator"
  usage := "Usage: vmtranslator [-o OUTPUT] [--no-bootstrap] [--annotate] [-v] SOURCE\n"
  grammar := grammar
  run := run

end HackToolchain.CommandLine.VmTranslator
