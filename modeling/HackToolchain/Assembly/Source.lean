import HackToolchain.Assembly.Error
import HackToolchain.Assembly.Instruction
import HackToolchain.Text.Lines

/-! Reading assembly text. A slash ends the instructions of its line, and what stands before it is
words without blanks, each of which has to be one whole instruction. -/
namespace HackToolchain.Assembly

/-- Assembly is read byte by byte: each stands for the character of its number. -/
def characters (bytes : ByteArray) : List Char :=
  bytes.data.toList.map fun byte => Char.ofNat byte.toNat

def isSymbolChar (c : Char) : Bool :=
  c.isAlphanum || c = '_' || c = '.' || c = '$' || c = ':'

def isCompChar (c : Char) : Bool :=
  (Operand.ofChar? c).isSome || (Operator.ofChar? c).isSome

/-- A symbol at the start of a word, and the rest of the word. -/
def takeSymbol (word : List Char) : Except Fault (String × List Char) :=
  let symbol := word.takeWhile isSymbolChar
  if symbol = [] then .error .missingSymbol
  else .ok (String.ofList symbol, word.dropWhile isSymbolChar)

def takeAddress (word : List Char) : Except Fault (Instruction × List Char) := do
  let (symbol, rest) ← takeSymbol word
  return (.address symbol, rest)

def takeLabel (word : List Char) : Except Fault (Instruction × List Char) := do
  match ← takeSymbol word with
  | (symbol, ')' :: rest) => return (.label symbol, rest)
  | (symbol, _) => throw (.unclosedLabel symbol)

/-- Any letters of the three places, in any order and number. -/
def Destination.ofLetters (letters : List Char) : Except Fault Machine.Destination :=
  if letters.all ['A', 'D', 'M'].contains then
    .ok ⟨letters.contains 'A', letters.contains 'D', letters.contains 'M'⟩
  else .error (.illegalDest (String.ofList letters))

/-- A sign before an operand, an operand, or an operator between two operands. -/
def Comp.ofChars? : List Char → Option Comp
  | [x] => (Operand.ofChar? x).map (.unary none)
  | [sign, x] => do
    let op ← Operator.ofChar? sign
    let operand ← Operand.ofChar? x
    if op = .not ∨ op = .minus then some (.unary (some op) operand) else none
  | [x, sign, y] => do
    let left ← Operand.ofChar? x
    let op ← Operator.ofChar? sign
    let right ← Operand.ofChar? y
    if op = .not then none else some (.binary left op right)
  | _ => none

def Comp.ofChars (chars : List Char) : Except Fault Comp :=
  match ofChars? chars with
  | some comp => .ok comp
  | none => .error (.illegalComp (String.ofList chars))

/-- A jump, if the text starts with a semicolon. -/
def takeJump (text : List Char) : Except Fault (Option Jump × List Char) :=
  match text with
  | ';' :: rest =>
    let name := String.ofList (rest.takeWhile Char.isUpper)
    match Jump.ofName? name with
    | some jump => .ok (some jump, rest.dropWhile Char.isUpper)
    | none => .error (.illegalJump name)
  | _ => .ok (none, text)

/-- A computing instruction. Characters of expressions are read first; before an equals sign they
name the destination, which may be empty. -/
def takeCompute (word : List Char) : Except Fault (Instruction × List Char) := do
  let first := word.takeWhile isCompChar
  let (dest, expression) ← match word.dropWhile isCompChar with
    | '=' :: rest => (Destination.ofLetters first).map (·, rest)
    | _ => pure (⟨false, false, false⟩, word)
  let comp ← Comp.ofChars (expression.takeWhile isCompChar)
  let (jump, rest) ← takeJump (expression.dropWhile isCompChar)
  return (.compute dest comp jump, rest)

def takeInstruction : List Char → Except Fault (Instruction × List Char)
  | '@' :: rest => takeAddress rest
  | '(' :: rest => takeLabel rest
  | word => takeCompute word

def Instruction.ofWord (word : List Char) : Except Fault Instruction := do
  match ← takeInstruction word with
  | (instruction, []) => return instruction
  | (_, c :: _) => throw (.unexpectedChar c)

def parseLine (line : List Char) (number : Nat) : Except Error (List Instruction) :=
  (Text.words (line.takeWhile (· ≠ '/'))).mapM fun word =>
    (Instruction.ofWord word).mapError (.syntactic number)

/-- The instructions of a text in order, labels included. -/
def parse (source : List Char) : Except Error (List Instruction) := do
  let lines ← (Text.numberedLines source).mapM fun (line, number) => parseLine line number
  return lines.flatten

end HackToolchain.Assembly
