import HackToolchain.Text.Decimal
import HackToolchain.Vm.Command
import HackToolchain.Vm.Token

/-! Reading commands off a token stream. A command's arguments stand on the line of its keyword. A
malformed command costs everything up to the next keyword and nothing beyond it, so errors stay
local. -/
namespace HackToolchain.Vm

/-- A reader that fails keeps the place where it failed: the next command is looked for there. -/
abbrev CommandReader := EStateM CommandError TokenStream

def Expected.tokenKind : Expected → Token.Kind
  | .segment | .symbol => .identifier
  | .number => .number

def Token.shown (t : Token) : String :=
  if t.kind = .endOfInput then "end of input" else t.text

namespace CommandReader

/-- The next token, if it is of the expected kind and on the command's line. -/
def argument (line : Nat) (keyword : String) (expected : Expected) : CommandReader Token := fun s =>
  let token := s.peek
  if token.kind = expected.tokenKind ∧ token.line = line then .ok token s.drop
  else .error (.unexpected token.line keyword expected token.shown) s

def segment (line : Nat) (keyword : String) : CommandReader String :=
  Token.text <$> argument line keyword .segment

def symbol (line : Nat) (keyword : String) : CommandReader String := do
  let token ← argument line keyword .symbol
  if isSymbol token.text then return token.text
  else throw (.invalidSymbol token.line token.text)

def number (line : Nat) (keyword : String) : CommandReader UInt16 := do
  let token ← argument line keyword .number
  match Text.decimal? 65535 token.text.toList with
  | some n => return UInt16.ofNat n
  | none => throw (.invalidNumber token.line token.text)

/-- The arguments of a command whose keyword has just been read. -/
def arguments (line : Nat) (keyword : String) (kind : CommandKind) : CommandReader Command :=
  match kind with
  | .arithmetic => return ⟨kind, some keyword, none⟩
  | .return | .erroneous => return ⟨kind, none, none⟩
  | .label | .goto | .ifGoto => return ⟨kind, some (← symbol line keyword), none⟩
  | .push | .pop =>
    return ⟨kind, some (← segment line keyword), some (← number line keyword)⟩
  | .function | .call =>
    return ⟨kind, some (← symbol line keyword), some (← number line keyword)⟩

def command : CommandReader Command := fun s =>
  let token := s.peek
  match token.kind, CommandKind.ofKeyword? token.text with
  | .identifier, some kind => arguments token.line token.text kind s.drop
  | _, _ => .error (.unknown token.line token.text) s.drop

/-- Where a reader leaves the stream, whether it succeeds or fails. -/
def rest (r : CommandReader α) (s : TokenStream) : TokenStream :=
  match r s with
  | .ok _ after | .error _ after => after

/-- A reader that uses up tokens of one line only. -/
def StaysOn (line : Nat) (r : CommandReader α) : Prop :=
  ∀ s : TokenStream, ∃ used, s = ⟨used ++ (r.rest s).tokens, (r.rest s).endLine⟩ ∧
    ∀ token ∈ used, token.line = line

variable {line : Nat}

theorem StaysOn.bind {r : CommandReader α} {next : α → CommandReader β} (first : StaysOn line r)
    (later : ∀ a, StaysOn line (next a)) : StaysOn line (r >>= next) := by
  intro s
  obtain ⟨used, split, here⟩ := first s
  simp only [rest, Bind.bind, EStateM.bind] at split ⊢
  cases result : r s with
  | error e after =>
    rw [result] at split
    exact ⟨used, split, here⟩
  | ok a after =>
    obtain ⟨more, split', here'⟩ := later a after
    rw [result] at split
    refine ⟨used ++ more, ?_, List.forall_mem_append.mpr ⟨here, here'⟩⟩
    obtain ⟨tokens, endLine⟩ := after
    obtain ⟨same, lastLine⟩ := TokenStream.mk.inj split'
    dsimp only [rest] at split same lastLine ⊢
    rw [split, List.append_assoc, ← same, ← lastLine]

theorem staysOn_pure (a : α) : StaysOn line (pure a) :=
  fun _ => ⟨[], rfl, nofun⟩

theorem staysOn_throw (e : CommandError) : StaysOn line (throw e : CommandReader α) :=
  fun _ => ⟨[], rfl, nofun⟩

variable (line) (keyword : String)

theorem staysOn_argument (expected : Expected) : StaysOn line (argument line keyword expected) := by
  rintro ⟨tokens, endLine⟩
  simp only [rest, argument]
  by_cases fits : (TokenStream.peek ⟨tokens, endLine⟩).kind = expected.tokenKind ∧
      (TokenStream.peek ⟨tokens, endLine⟩).line = line
  · rw [if_pos fits]
    cases tokens with
    | nil => cases expected <;> exact absurd fits.1 nofun
    | cons token rest => exact ⟨[token], rfl, List.forall_mem_singleton.mpr fits.2⟩
  · rw [if_neg fits]
    exact ⟨[], rfl, nofun⟩

theorem staysOn_segment : StaysOn line (segment line keyword) :=
  (staysOn_argument line keyword .segment).bind fun _ => staysOn_pure _

theorem staysOn_symbol : StaysOn line (symbol line keyword) := by
  refine (staysOn_argument line keyword .symbol).bind fun token => ?_
  split
  · exact staysOn_pure _
  · exact staysOn_throw _

theorem staysOn_number : StaysOn line (number line keyword) := by
  refine (staysOn_argument line keyword .number).bind fun token => ?_
  split
  · exact staysOn_pure _
  · exact staysOn_throw _

theorem staysOn_arguments (kind : CommandKind) : StaysOn line (arguments line keyword kind) := by
  cases kind with
  | arithmetic | «return» | erroneous => exact staysOn_pure _
  | label | goto | ifGoto => exact (staysOn_symbol line keyword).bind fun _ => staysOn_pure _
  | push | pop =>
    exact (staysOn_segment line keyword).bind fun _ =>
      (staysOn_number line keyword).bind fun _ => staysOn_pure _
  | function | call =>
    exact (staysOn_symbol line keyword).bind fun _ =>
      (staysOn_number line keyword).bind fun _ => staysOn_pure _

/-- A command uses up its first token, and after it tokens of the same line. -/
theorem exists_used (s : TokenStream) :
    ∃ used, s.drop = ⟨used ++ (command.rest s).tokens, (command.rest s).endLine⟩ ∧
      ∀ token ∈ used, token.line = s.peek.line := by
  cases shape : s.peek.kind with
  | number | endOfInput => exact ⟨[], by simp [rest, command, shape], nofun⟩
  | identifier =>
    cases known : CommandKind.ofKeyword? s.peek.text with
    | none => exact ⟨[], by simp [rest, command, shape, known], nofun⟩
    | some kind =>
      have reads : command.rest s = (arguments s.peek.line s.peek.text kind).rest s.drop := by
        simp only [rest, command, shape, known]
      rw [reads]
      exact staysOn_arguments _ _ kind s.drop

end CommandReader

def Token.isKeyword (t : Token) : Bool :=
  t.kind = .identifier && (CommandKind.ofKeyword? t.text).isSome

/-- One attempt to read a command, at the line where it began. -/
structure Reading where
  line : Nat
  result : Except CommandError Command

namespace TokenStream

/-- Goes on to the next keyword. -/
def recover (s : TokenStream) : TokenStream :=
  { s with tokens := s.tokens.dropWhile (!·.isKeyword) }

/-- Reads one command. At the end of input this reports an unknown empty word and stays there. -/
def read (s : TokenStream) : Reading × TokenStream :=
  match CommandReader.command s with
  | .ok command rest => (⟨s.peek.line, .ok command⟩, rest)
  | .error e rest => (⟨s.peek.line, .error e⟩, rest.recover)

theorem read_suffix (s : TokenStream) : s.read.2.tokens <:+ s.tokens.tail := by
  obtain ⟨used, split, _⟩ := CommandReader.exists_used s
  have left : (CommandReader.command.rest s).tokens <:+ s.tokens.tail :=
    ⟨used, (TokenStream.mk.inj split).1.symm⟩
  rw [CommandReader.rest] at left
  rw [read]
  cases result : CommandReader.command s with
  | ok _ _ => rwa [result] at left
  | error _ _ =>
    rw [result] at left
    exact (List.dropWhile_suffix _).trans left

theorem read_length_lt (s : TokenStream) (more : s.tokens ≠ []) :
    s.read.2.tokens.length < s.tokens.length := by
  have shorter := (read_suffix s).length_le
  have positive := List.length_pos_iff.mpr more
  rw [List.length_tail] at shorter
  omega

/-- Prepends the readings `before`, which are the latest first, to those still to come. -/
def readingsAfter (before : List Reading) (s : TokenStream) : List Reading :=
  if s.tokens = [] then before.reverse
  else readingsAfter (s.read.1 :: before) s.read.2
termination_by s.tokens.length
decreasing_by exact read_length_lt s ‹_›

/-- Reads commands until the end of input. -/
def readings (s : TokenStream) : List Reading :=
  readingsAfter [] s

end TokenStream

end HackToolchain.Vm
