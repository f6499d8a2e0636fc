import HackToolchain.Proofs.Text.Encoding
import HackToolchain.Proofs.Vm.Separators

/-! Reading by bytes. A lexer that goes from byte to byte compares each with characters of ASCII, and
of a byte that starts nothing it takes those behind it that cannot start a character. Its tokens and
its errors are those of the text: no byte of a longer character passes for another character, and an
error has all the bytes of one. -/
namespace HackToolchain.Vm

open Assembly (byteChar)
open Text (isContinuation encoded exists_bytes encoded_cons Bytewise bytewise_of_ascii)

structure ByteToken where
  kind : Token.Kind
  bytes : List UInt8
  line : Nat
  deriving DecidableEq

structure ByteError where
  line : Nat
  bytes : List UInt8
  deriving DecidableEq

/-- The bytes still to be read, and the number of the line they start on. -/
structure ByteCursor where
  rest : List UInt8
  line : Nat

namespace ByteCursor

/-- Takes bytes as long as the characters of their numbers are accepted. -/
def scan (accept : Char → Bool) (c : ByteCursor) : List UInt8 × ByteCursor :=
  let taken := c.rest.takeWhile (accept ∘ byteChar)
  (taken, ⟨c.rest.dropWhile (accept ∘ byteChar), c.line + taken.count 0x0a⟩)

theorem length_scan_le (accept : Char → Bool) (c : ByteCursor) :
    (c.scan accept).2.rest.length ≤ c.rest.length :=
  (List.dropWhile_suffix _).length_le

theorem length_scan_lt {accept : Char → Bool} {c : ByteCursor} {byte : UInt8}
    (first : byte ∈ c.rest.head?) (accepted : accept (byteChar byte)) :
    (c.scan accept).2.rest.length < c.rest.length := by
  obtain ⟨others, split⟩ := List.head?_eq_some_iff.mp first
  have dropped : (accept ∘ byteChar) byte := accepted
  rw [scan, split, List.dropWhile_cons_of_pos dropped]
  exact Nat.lt_succ_of_le (List.dropWhile_suffix _).length_le

/-- Passes over blanks and comments. -/
def skip (c : ByteCursor) : ByteCursor :=
  let ahead := (c.scan Text.isBlank).2
  if [0x2f, 0x2f] <+: ahead.rest then skip (ahead.scan (· ≠ '\n')).2 else ahead
termination_by c.rest.length
decreasing_by
  rename_i opens
  obtain ⟨text, split⟩ := opens
  have first : 0x2f ∈ ahead.rest.head? := by rw [← split]; rfl
  exact Nat.lt_of_lt_of_le (length_scan_lt first (by decide)) (length_scan_le Text.isBlank c)

def lexeme (kind : Token.Kind) (accept : Char → Bool) (c : ByteCursor) : ByteToken × ByteCursor :=
  let (bytes, behind) := c.scan accept
  (⟨kind, bytes, c.line⟩, behind)

/-- The token or the error at a byte that is not passed over. -/
def take (c : ByteCursor) : Except ByteError (ByteToken × ByteCursor) :=
  match c.rest with
  | [] => .ok (⟨.endOfInput, [], c.line⟩, c)
  | byte :: others =>
    if isIdentifierStart (byteChar byte) then .ok (c.lexeme .identifier isIdentifierRest)
    else if (byteChar byte).isDigit then .ok (c.lexeme .number Char.isDigit)
    else .error ⟨c.line, byte :: others.takeWhile isContinuation⟩

theorem length_skip_le (c : ByteCursor) : c.skip.rest.length ≤ c.rest.length := by
  fun_induction skip c with
  | case1 c ahead opens ih =>
    exact ih.trans ((length_scan_le _ _).trans (length_scan_le _ _))
  | case2 c ahead none => exact length_scan_le _ _

/-- A token other than the end of input has a byte. -/
theorem length_take_lt {c behind : ByteCursor} {token : ByteToken}
    (read : c.take = .ok (token, behind)) (more : token.kind ≠ .endOfInput) :
    behind.rest.length < c.rest.length := by
  unfold take at read
  split at read
  · obtain ⟨rfl, rfl⟩ := Prod.mk.inj (Except.ok.inj read)
    contradiction
  · rename_i byte others rest
    have first : byte ∈ c.rest.head? := by rw [rest]; rfl
    split at read
    · rename_i start
      obtain ⟨_, rfl⟩ := Prod.mk.inj (Except.ok.inj read)
      exact length_scan_lt first (by simp [isIdentifierRest, start])
    · split at read
      · obtain ⟨_, rfl⟩ := Prod.mk.inj (Except.ok.inj read)
        exact length_scan_lt first ‹_›
      · contradiction

/-- All tokens, the end of input as the last, or the first error. -/
def tokens (c : ByteCursor) : Except ByteError (List ByteToken) :=
  match _read : c.skip.take with
  | .error e => .error e
  | .ok (token, behind) =>
    if token.kind = .endOfInput then .ok [token]
    else (tokens behind).map (token :: ·)
termination_by c.rest.length
decreasing_by
  exact Nat.lt_of_lt_of_le (length_take_lt _read ‹_›) (length_skip_le c)

end ByteCursor

def tokenizeBytes (bytes : ByteArray) : Except ByteError (List ByteToken) :=
  ByteCursor.tokens ⟨bytes.data.toList, 1⟩

theorem toNat_lt_of_isIdentifierRest {c : Char} (rest : isIdentifierRest c) : c.toNat < 128 := by
  have plain (symbol : Assembly.isSymbolChar c) := Assembly.toNat_lt_of_isSymbolChar symbol
  simp only [isIdentifierRest, isIdentifierStart, Bool.or_eq_true, decide_eq_true_eq] at rest
  rcases rest with ((((letter | rfl) | rfl) | rfl) | digit) | rfl
  · exact plain (by simp [Assembly.isSymbolChar, Char.isAlphanum, letter])
  · decide
  · decide
  · decide
  · exact plain (by simp [Assembly.isSymbolChar, Char.isAlphanum, digit])
  · decide

theorem bytewise_isIdentifierRest : Bytewise isIdentifierRest :=
  bytewise_of_ascii fun _ => toNat_lt_of_isIdentifierRest

theorem bytewise_isIdentifierStart : Bytewise isIdentifierStart :=
  bytewise_of_ascii fun _ start => toNat_lt_of_isIdentifierRest (by simp [isIdentifierRest, start])

theorem bytewise_isDigit : Bytewise Char.isDigit :=
  bytewise_of_ascii fun _ digit => toNat_lt_of_isIdentifierRest (by simp [isIdentifierRest, digit])

theorem scan_encoded {p : Char → Bool} (bytewise : Bytewise p) (text : List Char) (n : Nat) :
    ByteCursor.scan p ⟨encoded text, n⟩ = (encoded (text.takeWhile p),
      ⟨encoded (text.dropWhile p), n + (text.takeWhile p).count '\n'⟩) := by
  obtain ⟨taken, left⟩ := Text.takeWhile_dropWhile_encoded bytewise text
  simp only [ByteCursor.scan, taken, left, Text.count_encoded]

theorem count_comment (text : List Char) :
    ('/' :: '/' :: text.takeWhile (· ≠ '\n')).count '\n' = 0 := by
  rw [List.count_cons_of_ne (by decide), List.count_cons_of_ne (by decide), List.count_eq_zero]
  exact not_mem_firstLine text

namespace ByteCursor

variable {n : Nat} {c : Char} {rest : List Char}

theorem skip_blank (blank : Text.isBlank c) (rest : List Char) :
    skip ⟨encoded (c :: rest), n⟩ = skip ⟨encoded rest, n + [c].count '\n'⟩ := by
  have same : (scan Text.isBlank ⟨encoded (c :: rest), n⟩).2 =
      (scan Text.isBlank ⟨encoded rest, n + [c].count '\n'⟩).2 := by
    rw [scan_encoded Text.bytewise_isBlank, scan_encoded Text.bytewise_isBlank,
      List.takeWhile_cons_of_pos blank, List.dropWhile_cons_of_pos blank,
      ← List.singleton_append, List.count_append, Nat.add_assoc]
  rw [skip, same, ← skip]

theorem skip_stop {text : List Char} (unblank : ∀ c ∈ text.head?, Text.isBlank c = false)
    (uncommented : ¬ ['/', '/'] <+: text) : skip ⟨encoded text, n⟩ = ⟨encoded text, n⟩ := by
  have ahead : (scan Text.isBlank ⟨encoded text, n⟩).2 = ⟨encoded text, n⟩ := by
    rw [scan_encoded Text.bytewise_isBlank, takeWhile_stop unblank, dropWhile_stop unblank]
    rfl
  rw [skip, ahead, if_neg]
  rintro ⟨bytes, split⟩
  obtain ⟨behind, rfl, second⟩ := Text.slash_of_encoded split.symm
  obtain ⟨others, rfl, _⟩ := Text.slash_of_encoded second
  exact uncommented ⟨others, rfl⟩

theorem skip_comment (text : List Char) :
    skip ⟨encoded ('/' :: '/' :: text), n⟩ = skip ⟨encoded (text.dropWhile (· ≠ '\n')), n⟩ := by
  have ahead : (scan Text.isBlank ⟨encoded ('/' :: '/' :: text), n⟩).2 =
      ⟨encoded ('/' :: '/' :: text), n⟩ := by
    rw [scan_encoded Text.bytewise_isBlank]
    rfl
  rw [skip, ahead, if_pos ⟨encoded text, rfl⟩, scan_encoded (Text.bytewise_ne (by decide)),
    List.takeWhile_cons_of_pos (by decide), List.takeWhile_cons_of_pos (by decide),
    count_comment]
  rfl

theorem take_of_rest {c : ByteCursor} {byte : UInt8} {others : List UInt8}
    (rest : c.rest = byte :: others) :
    c.take = if isIdentifierStart (byteChar byte) then .ok (c.lexeme .identifier isIdentifierRest)
      else if (byteChar byte).isDigit then .ok (c.lexeme .number Char.isDigit)
      else .error ⟨c.line, byte :: others.takeWhile isContinuation⟩ := by
  rw [take, rest]

theorem take_lexeme {kind : Token.Kind} {text : List Char} (isLexeme : IsLexeme kind text)
    (stop : ∀ c ∈ rest.head?, continues kind c = false) :
    take ⟨encoded (text ++ rest), n⟩ = .ok (⟨kind, encoded text, n⟩, ⟨encoded rest, n⟩) := by
  obtain ⟨c, chars, split⟩ := List.exists_cons_of_ne_nil isLexeme.ne_nil
  obtain ⟨first, others, encoding, _⟩ := exists_bytes c
  have member : first ∈ String.utf8EncodeChar c := encoding ▸ List.mem_cons_self
  have bytes : (⟨encoded (text ++ rest), n⟩ : ByteCursor).rest =
      first :: (others ++ encoded (chars ++ rest)) := by
    simp only [split, List.cons_append, encoded_cons, encoding]
  have inline := List.count_eq_zero.mpr isLexeme.inline
  have start := bytewise_isIdentifierStart c first member
  rw [take_of_rest bytes, start, bytewise_isDigit c first member]
  cases isLexeme with
  | identifier identifier =>
    have opens : isIdentifierStart c := by
      obtain ⟨letter, _, same, opens, _⟩ := identifier
      rwa [(List.cons.inj (split.symm.trans same)).1]
    rw [if_pos opens, lexeme, scan_encoded bytewise_isIdentifierRest,
      Assembly.takeWhile_all identifier.all stop, Assembly.dropWhile_all identifier.all stop, inline]
    rfl
  | number some digits =>
    have digit : c.isDigit := digits c (split ▸ List.mem_cons_self)
    have unopened : ¬ isIdentifierStart c := by
      intro opens
      simp [Vm.isDigit_of_isIdentifierStart opens] at digit
    rw [if_neg unopened, if_pos digit, lexeme, scan_encoded bytewise_isDigit,
      Assembly.takeWhile_all digits stop, Assembly.dropWhile_all digits stop, inline]
    rfl

theorem take_stray (stray : Stray c rest) :
    take ⟨encoded (c :: rest), n⟩ = .error ⟨n, String.utf8EncodeChar c⟩ := by
  obtain ⟨first, others, encoding, _, continuing⟩ := exists_bytes c
  have member : first ∈ String.utf8EncodeChar c := encoding ▸ List.mem_cons_self
  have bytes : (⟨encoded (c :: rest), n⟩ : ByteCursor).rest = first :: (others ++ encoded rest) := by
    simp only [encoded_cons, encoding, List.cons_append]
  have stop : ∀ byte ∈ (encoded rest).head?, isContinuation byte = false := by
    cases rest with
    | nil => exact nofun
    | cons d later =>
      obtain ⟨next, behind, following, opens, _⟩ := exists_bytes d
      rw [encoded_cons, following]
      rintro _ ⟨⟩
      exact opens
  rw [take_of_rest bytes, bytewise_isIdentifierStart c first member,
    bytewise_isDigit c first member, stray.unstarted, stray.undigit, encoding,
    Assembly.takeWhile_all continuing stop]
  rfl

variable {cursor behind : ByteCursor} {token : ByteToken}

theorem tokens_congr {other : ByteCursor} (same : cursor.skip = other.skip) :
    cursor.tokens = other.tokens := by
  rw [tokens, tokens, same]

theorem tokens_of_token (read : cursor.skip.take = .ok (token, behind)) :
    cursor.tokens = if token.kind = .endOfInput then .ok [token]
      else behind.tokens.map (token :: ·) := by
  rw [tokens]
  split
  · rename_i failed
    rw [read] at failed
    contradiction
  · rename_i found
    obtain ⟨rfl, rfl⟩ := Prod.mk.inj (Except.ok.inj (read.symm.trans found))
    rfl

theorem tokens_of_error {e : ByteError} (failed : cursor.skip.take = .error e) :
    cursor.tokens = .error e := by
  rw [tokens]
  split
  · rename_i found
    rw [Except.error.inj (found.symm.trans failed)]
  · rename_i found
    rw [failed] at found
    contradiction

end ByteCursor

def Token.inBytes (token : Token) : ByteToken :=
  ⟨token.kind, encoded token.text.toList, token.line⟩

def LexError.inBytes (e : LexError) : ByteError :=
  ⟨e.line, String.utf8EncodeChar e.char⟩

/-- What is read off the bytes of a text that ends on a line, if these are its tokens or its error. -/
def readInBytes (endLine : Nat) : Except LexError (List Token) → Except ByteError (List ByteToken)
  | .ok tokens => .ok ((tokens ++ [(⟨.endOfInput, "", endLine⟩ : Token)]).map Token.inBytes)
  | .error e => .error e.inBytes

theorem readInBytes_joined (endLine : Nat) (token : Token) (later : Except LexError (List Token)) :
    readInBytes endLine (joined (.ok [token]) later) =
      (readInBytes endLine later).map (token.inBytes :: ·) := by
  cases later <;> rfl

theorem tokens_lexeme {kind : Token.Kind} {text rest : List Char} (lexeme : IsLexeme kind text)
    (stop : ∀ c ∈ rest.head?, continues kind c = false) (n : Nat) :
    ByteCursor.tokens ⟨encoded (text ++ rest), n⟩ =
      (ByteCursor.tokens ⟨encoded rest, n⟩).map (List.cons ⟨kind, encoded text, n⟩) := by
  obtain ⟨c, chars, split⟩ := List.exists_cons_of_ne_nil lexeme.ne_nil
  have word := isWordChar_of_continues (lexeme.all c (split ▸ List.mem_cons_self))
  simp only [Assembly.isWordChar, Bool.and_eq_true, Bool.not_eq_true', decide_eq_true_eq] at word
  have skipped : ByteCursor.skip ⟨encoded (text ++ rest), n⟩ = ⟨encoded (text ++ rest), n⟩ := by
    apply ByteCursor.skip_stop
    · rw [split]
      rintro _ ⟨⟩
      exact word.1
    · rw [split]
      rintro ⟨_, opens⟩
      exact word.2 (List.cons.inj opens).1.symm
  have read : (ByteCursor.skip ⟨encoded (text ++ rest), n⟩).take =
      .ok (⟨kind, encoded text, n⟩, ⟨encoded rest, n⟩) := by
    rw [skipped, ByteCursor.take_lexeme lexeme stop]
  rw [ByteCursor.tokens_of_token read, if_neg lexeme.ne_endOfInput]

theorem tokens_encoded (text : List Char) (n : Nat) :
    ByteCursor.tokens ⟨encoded text, n⟩ = readInBytes (n + text.count '\n') (textTokens n text) := by
  induction text using lexeme_induction generalizing n with
  | nil =>
    rw [textTokens_nil]
    have skipped : ByteCursor.skip ⟨encoded [], n⟩ = ⟨encoded [], n⟩ :=
      ByteCursor.skip_stop nofun (by simp)
    have read : (ByteCursor.skip ⟨encoded [], n⟩).take =
        .ok (⟨.endOfInput, [], n⟩, ⟨encoded [], n⟩) := by
      rw [skipped]
      rfl
    rw [ByteCursor.tokens_of_token read, if_pos rfl]
    rfl
  | blank c rest separates ih =>
    rw [ByteCursor.tokens_congr (ByteCursor.skip_blank separates rest), ih, Nat.add_assoc,
      ← List.count_append, List.singleton_append, textTokens_passed separates]
  | comment text ih =>
    have split : ('/' :: '/' :: text).count '\n' = (text.dropWhile (· ≠ '\n')).count '\n' := by
      conv_lhs => rw [← List.takeWhile_append_dropWhile (p := (· ≠ '\n')) (l := text)]
      rw [← List.cons_append, ← List.cons_append, List.count_append, count_comment,
        Nat.zero_add]
    rw [ByteCursor.tokens_congr (ByteCursor.skip_comment text), ih, textTokens_comment, split]
  | lexeme kind text rest lexeme stop ih =>
    rw [tokens_lexeme lexeme stop, lexeme.read stop, readInBytes_joined, ih, List.count_append,
      List.count_eq_zero.mpr lexeme.inline, Nat.zero_add, Token.inBytes, String.toList_ofList]
  | stray c rest stray =>
    have skipped : ByteCursor.skip ⟨encoded (c :: rest), n⟩ = ⟨encoded (c :: rest), n⟩ := by
      apply ByteCursor.skip_stop
      · rintro _ ⟨⟩
        exact stray.unblank
      · rintro ⟨later, opens⟩
        obtain ⟨rfl, rfl⟩ := List.cons.inj opens
        exact stray.uncommented ⟨rfl, rfl⟩
    have failed : (ByteCursor.skip ⟨encoded (c :: rest), n⟩).take =
        .error ⟨n, String.utf8EncodeChar c⟩ := by
      rw [skipped, ByteCursor.take_stray stray]
    rw [ByteCursor.tokens_of_error failed, textTokens_stray stray]
    rfl

/-- The bytes of a text are read as its characters are. -/
theorem tokenizeBytes_eq (source : String) :
    tokenizeBytes source.toUTF8 = ((tokenize source).map fun s => s.toList.map Token.inBytes).mapError
      LexError.inBytes := by
  rw [tokenizeBytes, Text.toList_toUTF8, tokens_encoded, tokenize_eq, Nat.add_comm]
  cases textTokens 1 source.toList <;> rfl

end HackToolchain.Vm
