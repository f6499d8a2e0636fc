import HackToolchain.Text.Quoted

/-! Commands of the stack-machine language as they are spelled: a keyword, at most one name and at
most one count. Whether the name is a known segment or operator is not decided here. -/
namespace HackToolchain.Vm

/-- What a command does; `erroneous` stands for a command that could not be read. -/
inductive CommandKind where
  | arithmetic
  | push
  | pop
  | label
  | goto
  | ifGoto
  | function
  | call
  | return
  | erroneous
  deriving DecidableEq

inductive ArithmeticOp where
  | add
  | sub
  | neg
  | eq
  | gt
  | lt
  | and
  | or
  | not
  deriving DecidableEq

inductive Segment where
  | argument
  | local
  | static
  | constant
  | this
  | that
  | pointer
  | temp
  deriving DecidableEq

namespace ArithmeticOp

def all : List ArithmeticOp := [.add, .sub, .neg, .eq, .gt, .lt, .and, .or, .not]

def name : ArithmeticOp → String
  | .add => "add"
  | .sub => "sub"
  | .neg => "neg"
  | .eq => "eq"
  | .gt => "gt"
  | .lt => "lt"
  | .and => "and"
  | .or => "or"
  | .not => "not"

def ofName? (word : String) : Option ArithmeticOp :=
  all.find? (·.name = word)

end ArithmeticOp

namespace Segment

def all : List Segment := [.argument, .local, .static, .constant, .this, .that, .pointer, .temp]

def name : Segment → String
  | .argument => "argument"
  | .local => "local"
  | .static => "static"
  | .constant => "constant"
  | .this => "this"
  | .that => "that"
  | .pointer => "pointer"
  | .temp => "temp"

def ofName? (word : String) : Option Segment :=
  all.find? (·.name = word)

end Segment

namespace CommandKind

/-- The kinds with a keyword of their own; the keyword of an arithmetic command is its operator. -/
def withKeyword : List CommandKind :=
  [.push, .pop, .label, .goto, .ifGoto, .function, .call, .return]

/-- The word for a kind of command, in sources and in messages. -/
def name : CommandKind → String
  | .arithmetic => "arithmetic"
  | .push => "push"
  | .pop => "pop"
  | .label => "label"
  | .goto => "goto"
  | .ifGoto => "if-goto"
  | .function => "function"
  | .call => "call"
  | .return => "return"
  | .erroneous => "erroneous"

/-- How many arguments follow the keyword. -/
def arity : CommandKind → Nat
  | .arithmetic | .return | .erroneous => 0
  | .label | .goto | .ifGoto => 1
  | .push | .pop | .function | .call => 2

def ofKeyword? (word : String) : Option CommandKind :=
  if (ArithmeticOp.ofName? word).isSome then some .arithmetic
  else withKeyword.find? (·.name = word)

end CommandKind

/-- A command as written. `name?` is the operator of an arithmetic command, the segment of a push or
pop and the symbol of any other command; `count?` is the index or count. -/
structure Command where
  kind : CommandKind
  name? : Option String
  count? : Option UInt16
  deriving DecidableEq

namespace Command

def erroneous : Command := ⟨.erroneous, none, none⟩

end Command

/-- What a command may expect after its keyword. -/
inductive Expected where
  | segment
  | symbol
  | number
  deriving DecidableEq

def Expected.description : Expected → String
  | .segment => "a segment"
  | .symbol => "a symbol"
  | .number => "a number"

/-- Why the text at `line` is not a command. -/
inductive CommandError where
  | unknown (line : Nat) (word : String)
  | unexpected (line : Nat) (keyword : String) (expected : Expected) (found : String)
  | invalidNumber (line : Nat) (text : String)
  | invalidSymbol (line : Nat) (text : String)
  deriving DecidableEq

def CommandError.message : CommandError → String
  | .unknown line word => s!"line {line}: unknown command {Text.quoted word}"
  | .unexpected line keyword expected found =>
    s!"line {line}: {keyword} expects {expected.description}, found {Text.quoted found}"
  | .invalidNumber line text => s!"line {line}: invalid number {Text.quoted text}"
  | .invalidSymbol line text => s!"line {line}: invalid symbol {Text.quoted text}"

end HackToolchain.Vm
