/-! The grammar of command lines. Options start with a hyphen and may stand anywhere before a lone
double hyphen; a value follows its option or is attached to it. The first thing wrong, or the first
request for help or the version, decides. -/
namespace HackToolchain.CommandLine

inductive OptionKind where
  /-- May be given once. -/
  | flag
  /-- May be given any number of times. -/
  | count
  /-- Takes a value and may be given once. -/
  | value
  | help
  | version
  deriving DecidableEq

structure OptionSpec where
  long : String
  short? : Option Char
  kind : OptionKind
  deriving DecidableEq

/-- What a program accepts. It needs at least one operand. -/
structure Grammar where
  options : List OptionSpec
  maxOperands? : Option Nat

/-- Why the arguments are not carried out. -/
inductive Stop where
  | rejected
  | help
  | version
  deriving DecidableEq

/-- Operands and options in the order given; `pending?` is an option whose value is still to come. -/
structure Arguments where
  operands : List String
  options : List (String × Option String)
  pending? : Option OptionSpec
  optionsEnded : Bool

namespace Arguments

def empty : Arguments := ⟨[], [], none, false⟩

def has (a : Arguments) (long : String) : Bool :=
  a.options.any (·.1 = long)

def value? (a : Arguments) (long : String) : Option String :=
  (a.options.lookup long).join

def addOperand (g : Grammar) (a : Arguments) (operand : String) : Except Stop Arguments :=
  let full := g.maxOperands?.any (· ≤ a.operands.length)
  if operand = "" ∨ full then .error .rejected
  else .ok { a with operands := a.operands ++ [operand] }

/-- Takes an option with the value it needs. -/
def addOption (a : Arguments) (spec : OptionSpec) (value? : Option String) :
    Except Stop Arguments :=
  let added : Arguments :=
    { a with options := a.options ++ [(spec.long, value?)], pending? := none }
  match spec.kind with
  | .help => .error .help
  | .version => .error .version
  | .count => .ok added
  | .flag => if a.has spec.long then .error .rejected else .ok added
  | .value => if a.has spec.long ∨ value? = some "" then .error .rejected else .ok added

/-- An option in its long form, which may have a value attached after an equals sign. -/
def addLong (g : Grammar) (a : Arguments) (text : List Char) : Except Stop Arguments :=
  let name := String.ofList (text.takeWhile (· ≠ '='))
  let attached? := match text.dropWhile (· ≠ '=') with
    | [] => none
    | _ :: value => some (String.ofList value)
  match g.options.find? (·.long = name) with
  | none => .error .rejected
  | some spec =>
    if spec.kind = .value then
      match attached? with
      | none => .ok { a with pending? := some spec }
      | some value => a.addOption spec (some value)
    else if attached?.isSome then .error .rejected
    else a.addOption spec none

/-- Options in their short form, one letter each. All that follows the letter of an option with a
value is its value, less an equals sign. -/
def addShort (g : Grammar) (a : Arguments) : List Char → Except Stop Arguments
  | [] => .ok a
  | letter :: rest =>
    match g.options.find? (·.short? = some letter) with
    | none => .error .rejected
    | some spec =>
      if spec.kind = .value then
        match rest with
        | [] => .ok { a with pending? := some spec }
        | '=' :: value => a.addOption spec (some (String.ofList value))
        | value => a.addOption spec (some (String.ofList value))
      else do
        addShort g (← a.addOption spec none) rest

/-- One argument. A value that has to be attached, because it starts with a hyphen, cannot follow
its option; a single hyphen is no option. -/
def add (g : Grammar) (a : Arguments) (text : String) : Except Stop Arguments :=
  match a.pending?, a.optionsEnded, text.toList with
  | some spec, _, chars =>
    match chars with
    | '-' :: _ :: _ => .error .rejected
    | _ => a.addOption spec (some text)
  | none, true, _ => a.addOperand g text
  | none, false, ['-', '-'] => .ok { a with optionsEnded := true }
  | none, false, '-' :: '-' :: long => a.addLong g long
  | none, false, '-' :: letter :: letters => a.addShort g (letter :: letters)
  | none, false, _ => a.addOperand g text

def parse (g : Grammar) (texts : List String) : Except Stop Arguments := do
  let a ← texts.foldlM (add g) empty
  if a.pending?.isSome ∨ a.operands = [] then throw .rejected
  return a

end Arguments

end HackToolchain.CommandLine
