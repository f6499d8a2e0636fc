import HackToolchain.Proofs.Vm.Grammar

/-! Texts joined by a line feed. The second text has the tokens that it has alone, so many lines
later, and once the first has been read without an error it is read as if it stood alone. -/
namespace HackToolchain.Vm

def Token.later (t : Token) (n : Nat) : Token :=
  { t with line := t.line + n }

namespace TokenStream

def later (s : TokenStream) (n : Nat) : TokenStream :=
  ⟨s.tokens.map (·.later n), s.endLine + n⟩

/-- What follows stands on the lines after those of `s`. -/
def join (s t : TokenStream) : TokenStream :=
  ⟨s.tokens ++ (t.later s.endLine).tokens, (t.later s.endLine).endLine⟩

end TokenStream

def CommandError.later : CommandError → Nat → CommandError
  | .unknown line word, n => .unknown (line + n) word
  | .unexpected line keyword expected found, n => .unexpected (line + n) keyword expected found
  | .invalidNumber line text, n => .invalidNumber (line + n) text
  | .invalidSymbol line text, n => .invalidSymbol (line + n) text

def Reading.later (r : Reading) (n : Nat) : Reading :=
  ⟨r.line + n, r.result.mapError (·.later n)⟩

/-- Only errors about the text have lines. -/
def Error.later : Error → Nat → Error
  | .lex e, n => .lex { e with line := e.line + n }
  | .command e, n => .command (e.later n)
  | e, _ => e

namespace TokenStream

variable (s : TokenStream) (n : Nat)

@[simp] theorem peek_later : (s.later n).peek = s.peek.later n := by
  obtain ⟨_ | ⟨token, tokens⟩, endLine⟩ := s <;> rfl

@[simp] theorem drop_later : (s.later n).drop = s.drop.later n := by
  obtain ⟨_ | ⟨token, tokens⟩, endLine⟩ := s <;> rfl

@[simp] theorem recover_later : (s.later n).recover = s.recover.later n := by
  simp only [recover, later, List.dropWhile_map]
  rfl

end TokenStream

namespace CommandReader

variable {n : Nat}

/-- What a reader answers `n` lines further down. -/
def shift (n : Nat) (f : α → β) :
    EStateM.Result CommandError TokenStream α → EStateM.Result CommandError TokenStream β
  | .ok a s => .ok (f a) (s.later n)
  | .error e s => .error (e.later n) (s.later n)

/-- `further` does `n` lines further down what `reader` does; its value is the one that `f` gives. -/
def Carries (n : Nat) (f : α → β) (reader : CommandReader α) (further : CommandReader β) : Prop :=
  ∀ s : TokenStream, further (s.later n) = shift n f (reader s)

theorem Carries.bind {f : α → β} {g : γ → δ} {reader : CommandReader α} {further : CommandReader β}
    {next : α → CommandReader γ} {nextFurther : β → CommandReader δ}
    (first : Carries n f reader further)
    (second : ∀ a, Carries n g (next a) (nextFurther (f a))) :
    Carries n g (reader >>= next) (further >>= nextFurther) := by
  intro s
  simp only [Bind.bind, EStateM.bind, first s]
  cases reader s with
  | ok a after => exact second a after
  | error e after => rfl

theorem Carries.pure (f : α → β) (a : α) : Carries n f (Pure.pure a) (Pure.pure (f a)) :=
  fun _ => rfl

theorem carries_throw (f : α → β) (e : CommandError) :
    Carries n f (throw e) (throw (e.later n)) :=
  fun _ => rfl

variable (line : Nat) (keyword : String)

theorem carries_argument (expected : Expected) :
    Carries n (·.later n) (argument line keyword expected)
      (argument (line + n) keyword expected) := by
  intro s
  simp only [argument, TokenStream.peek_later, TokenStream.drop_later, Token.later,
    Nat.add_right_cancel_iff]
  split
  · rfl
  · rfl

theorem carries_segment :
    Carries n id (segment line keyword) (segment (line + n) keyword) := by
  simp only [segment, map_eq_pure_bind]
  exact (carries_argument line keyword .segment).bind fun token => .pure id token.text

theorem carries_symbol :
    Carries n id (symbol line keyword) (symbol (line + n) keyword) := by
  refine (carries_argument line keyword .symbol).bind fun token => ?_
  change Carries n id _ (if isSymbol token.text then pure token.text
    else throw (.invalidSymbol (token.line + n) token.text))
  split
  · exact .pure id token.text
  · exact carries_throw id (.invalidSymbol token.line token.text)

theorem carries_number :
    Carries n id (number line keyword) (number (line + n) keyword) := by
  refine (carries_argument line keyword .number).bind fun token => ?_
  simp only [Token.later]
  split
  · exact .pure id _
  · exact carries_throw id (.invalidNumber token.line token.text)

theorem carries_arguments (kind : CommandKind) :
    Carries n id (arguments line keyword kind) (arguments (line + n) keyword kind) := by
  cases kind with
  | arithmetic | «return» | erroneous => exact .pure id _
  | label | goto | ifGoto =>
    exact (carries_symbol line keyword).bind fun _ => .pure id _
  | push | pop =>
    exact (carries_segment line keyword).bind fun _ =>
      (carries_number line keyword).bind fun _ => .pure id _
  | function | call =>
    exact (carries_symbol line keyword).bind fun _ =>
      (carries_number line keyword).bind fun _ => .pure id _

theorem carries_command : Carries n id command command := by
  intro s
  simp only [command, TokenStream.peek_later, TokenStream.drop_later, Token.later]
  split
  · exact carries_arguments s.peek.line s.peek.text _ s.drop
  · rfl

end CommandReader

namespace TokenStream

theorem read_later (s : TokenStream) (n : Nat) :
    (s.later n).read = (s.read.1.later n, s.read.2.later n) := by
  have carried := CommandReader.carries_command (n := n) s
  simp only [read, peek_later, carried]
  cases CommandReader.command s with
  | ok c after => rfl
  | error e after => exact congrArg (Prod.mk _) (recover_later after n)

theorem readings_later (s : TokenStream) (n : Nat) :
    (s.later n).readings = s.readings.map (·.later n) := by
  induction size : s.tokens.length using Nat.strongRecOn generalizing s with
  | ind size ih =>
    by_cases none : s.tokens = []
    · obtain ⟨tokens, endLine⟩ := s
      obtain rfl : tokens = [] := none
      rw [readings_nil]
      exact readings_nil (endLine + n)
    · have more : (s.later n).tokens ≠ [] := mt List.map_eq_nil_iff.mp none
      rw [readings_cons more, readings_cons none, read_later, List.map_cons,
        ih _ (by have := read_length_lt s none; omega) s.read.2 rfl]

/-- Commands that are read without an error do not look at what follows them. -/
theorem readings_append {s : TokenStream} (rest : TokenStream)
    (read : ∀ reading ∈ s.readings, ∃ c, reading.result = .ok c) :
    readings ⟨s.tokens ++ rest.tokens, rest.endLine⟩ = s.readings ++ rest.readings := by
  induction size : s.tokens.length using Nat.strongRecOn generalizing s with
  | ind size ih =>
    by_cases none : s.tokens = []
    · obtain ⟨tokens, endLine⟩ := s
      obtain rfl : tokens = [] := none
      rw [readings_nil]
      rfl
    · rw [readings_cons none, List.forall_mem_cons] at read
      obtain ⟨⟨c, first⟩, others⟩ := read
      obtain ⟨line, used, written, split⟩ := exists_written first
      have shorter := read_length_lt s none
      have alone : s.readings = ⟨line, .ok c⟩ :: s.read.2.readings := by
        conv_lhs => rw [split]
        exact readings_of_written written s.read.2.tokens s.read.2.endLine
      rw [alone, congrArg tokens split, List.append_assoc, readings_of_written written,
        ih _ (size ▸ shorter) others rfl, List.cons_append]

theorem readings_join {s t : TokenStream}
    (read : ∀ reading ∈ s.readings, ∃ c, reading.result = .ok c) :
    (s.join t).readings = s.readings ++ t.readings.map (·.later s.endLine) := by
  rw [join, readings_append _ read, readings_later]

end TokenStream

theorem wordTokens_later {line : Nat} {word : List Char} {tokens : List Token}
    (cut : wordTokens line word = .ok tokens) (n : Nat) :
    wordTokens (line + n) word = .ok (tokens.map (·.later n)) := by
  unfold wordTokens at cut ⊢
  simp only at cut ⊢
  split at cut
  · contradiction
  · rename_i none
    obtain rfl := Except.ok.inj cut
    rw [List.map_filterMap]
    congr
    funext piece
    split <;> rfl

theorem lineTokens_later {line : List Char} {number : Nat} {tokens : List Token}
    (cut : lineTokens line number = .ok tokens) (n : Nat) :
    lineTokens line (number + n) = .ok (tokens.map (·.later n)) := by
  obtain ⟨parts, words, rfl⟩ := lineTokens_eq_ok.mp cut
  refine lineTokens_eq_ok.mpr ⟨parts.map (·.map (·.later n)), ?_, List.map_flatten.symm⟩
  rw [List.forall₂_map_right_iff]
  exact words.imp fun word part read => wordTokens_later read n

/-- The lines of the second text are numbered on. -/
theorem numberedLines_joined (first second : List Char) :
    Text.numberedLines (first ++ '\n' :: second) = Text.numberedLines first ++
      (Text.numberedLines second).map (Prod.map id (· + (Text.lines first).length)) := by
  rw [Text.numberedLines, Text.zipIdx_lines_joined, ← Text.length_lines, Nat.add_comm 1]
  exact congrArg _ List.map_snd_add_zipIdx_eq_zipIdx.symm

/-- A comment at the end of the first text ends there. -/
theorem tokenize_joined {first second : String} {s t : TokenStream}
    (cut : tokenize first = .ok s) (cut' : tokenize second = .ok t) :
    tokenize (first ++ "\n" ++ second) = .ok (s.join t) := by
  obtain ⟨parts, lines, rfl⟩ := tokenize_eq_ok.mp cut
  obtain ⟨parts', lines', rfl⟩ := tokenize_eq_ok.mp cut'
  have text : (first ++ "\n" ++ second).toList = first.toList ++ '\n' :: second.toList := by
    simp
  rw [tokenize_eq_ok, text]
  refine ⟨parts ++ parts'.map (·.map (·.later (Text.lines first.toList).length)), ?_, ?_⟩
  · rw [numberedLines_joined]
    refine List.rel_append lines ?_
    rw [List.forall₂_map_left_iff, List.forall₂_map_right_iff]
    exact lines'.imp fun line part read => lineTokens_later read _
  · rw [List.flatten_append, ← List.map_flatten, Text.lines_joined, List.length_append, Nat.add_comm]
    rfl

theorem endLine_of_tokenize {source : String} {s : TokenStream}
    (cut : tokenize source = .ok s) : s.endLine = source.toList.count '\n' + 1 := by
  obtain ⟨_, _, rfl⟩ := tokenize_eq_ok.mp cut
  exact Text.length_lines source.toList

end HackToolchain.Vm
