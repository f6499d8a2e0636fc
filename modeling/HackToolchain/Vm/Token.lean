import HackToolchain.Text.Lines
import HackToolchain.Text.Quoted

/-! Tokens of the stack-machine language. A unit of source text is cut into identifiers and
numbers; a comment runs from two slashes to the end of its line. A stretch without blanks is at most
one number followed by at most one identifier, because an identifier takes every later digit and
nothing but a number can stand directly before one. -/
namespace HackToolchain.Vm

inductive Token.Kind where
  | identifier
  | number
  | endOfInput
  deriving DecidableEq

structure Token where
  kind : Token.Kind
  text : String
  line : Nat
  deriving DecidableEq

/-- A character that belongs to no token, on its line. -/
structure LexError where
  line : Nat
  char : Char
  deriving DecidableEq

def LexError.message (e : LexError) : String :=
  s!"line {e.line}: unexpected {Text.quoted (String.singleton e.char)}"

/-- The tokens of a unit still to be read, and the line on which its text ends. -/
structure TokenStream where
  tokens : List Token
  endLine : Nat
  deriving DecidableEq

namespace TokenStream

/-- The token at the end of input is never used up. -/
def peek (s : TokenStream) : Token :=
  s.tokens.headD ⟨.endOfInput, "", s.endLine⟩

def drop (s : TokenStream) : TokenStream :=
  { s with tokens := s.tokens.tail }

/-- All tokens, the end of input among them as the last. -/
def toList (s : TokenStream) : List Token :=
  s.tokens ++ [⟨.endOfInput, "", s.endLine⟩]

end TokenStream

def isIdentifierStart (c : Char) : Bool :=
  c.isAlpha || c = '_' || c = '.' || c = ':'

def isIdentifierRest (c : Char) : Bool :=
  isIdentifierStart c || c.isDigit || c = '-'

/-- A symbol can stand in assembly: it is an identifier without a hyphen. -/
def isSymbol (name : String) : Bool :=
  match name.toList with
  | [] => false
  | c :: rest => isIdentifierStart c && rest.all fun c => isIdentifierRest c && c ≠ '-'

/-- The part of a line before its comment, if it has one. -/
def beforeComment (line : List Char) : List Char :=
  let step := fun c (next : Option Char × List Char) =>
    (some c, if c = '/' ∧ next.1 = some '/' then [] else c :: next.2)
  (line.foldr step (none, [])).2

/-- The longest identifier at the start of a text, and what follows it. -/
def takeIdentifier (text : List Char) : List Char × List Char :=
  match text with
  | c :: _ =>
    if isIdentifierStart c then (text.takeWhile isIdentifierRest, text.dropWhile isIdentifierRest)
    else ([], text)
  | [] => ([], [])

/-- The tokens of a stretch without blanks, or the first character that belongs to none. -/
def wordTokens (line : Nat) (word : List Char) : Except LexError (List Token) :=
  let digits := word.takeWhile Char.isDigit
  let (name, rest) := takeIdentifier (word.dropWhile Char.isDigit)
  match rest with
  | c :: _ => .error ⟨line, c⟩
  | [] => .ok ([(Token.Kind.number, digits), (.identifier, name)].filterMap fun (kind, text) =>
      if text = [] then none else some ⟨kind, String.ofList text, line⟩)

def lineTokens (line : List Char) (number : Nat) : Except LexError (List Token) :=
  (Text.words (beforeComment line)).mapM (wordTokens number) |>.map List.flatten

/-- Cuts a unit into tokens; the first character outside every token rejects the whole unit. -/
def tokenize (source : String) : Except LexError TokenStream := do
  let lines := Text.numberedLines source.toList
  let tokens ← lines.mapM fun (line, number) => lineTokens line number
  return ⟨tokens.flatten, lines.length⟩

end HackToolchain.Vm
