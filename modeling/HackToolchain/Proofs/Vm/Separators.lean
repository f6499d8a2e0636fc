import HackToolchain.Proofs.Assembly.RoundTrip
import HackToolchain.Proofs.Vm.Scanning

/-! Lexemes with anything between them. Identifiers and numbers that are written one after the other,
with blanks and comments around them, are read as those lexemes on the lines on which they stand. -/
namespace HackToolchain.Vm

open Assembly (IsGap isWordChar)

/-- The text of a token other than the end of input. -/
inductive IsLexeme : Token.Kind → List Char → Prop where
  | identifier {text : List Char} (identifier : IsIdentifier text) : IsLexeme .identifier text
  | number {text : List Char} (some : text ≠ []) (digits : ∀ c ∈ text, c.isDigit) :
    IsLexeme .number text

/-- What may stand behind the last lexeme: the end of input, too, ends a comment. -/
inductive IsLastGap : List Char → Prop where
  | ended {gap : List Char} (isGap : IsGap gap) : IsLastGap gap
  | comment {gap text : List Char} (isGap : IsGap gap) (whole : '\n' ∉ text) :
    IsLastGap (gap ++ '/' :: '/' :: text)

/-- A lexeme, and the gap in front of it. -/
structure Piece where
  gap : List Char
  kind : Token.Kind
  text : List Char

/-- Only an identifier behind a number needs no gap. -/
def Piece.Apart (piece next : Piece) : Prop :=
  next.gap ≠ [] ∨ piece.kind = .number ∧ next.kind = .identifier

structure Separated (pieces : List Piece) (last : List Char) : Prop where
  gaps : ∀ piece ∈ pieces, IsGap piece.gap
  lexemes : ∀ piece ∈ pieces, IsLexeme piece.kind piece.text
  apart : pieces.IsChain Piece.Apart
  last : IsLastGap last

def written : List Piece → List Char → List Char
  | [], last => last
  | piece :: rest, last => piece.gap ++ piece.text ++ written rest last

/-- The tokens of these lexemes where they are written behind another text, with the end of input as
the last. The line of each is one more than the line feeds before it. -/
def tokensBehind (before : List Char) : List Piece → List Char → List Token
  | [], last => [⟨.endOfInput, "", 1 + (before ++ last).count '\n'⟩]
  | piece :: rest, last =>
    ⟨piece.kind, String.ofList piece.text, 1 + (before ++ piece.gap).count '\n'⟩ ::
      tokensBehind (before ++ piece.gap ++ piece.text) rest last

theorem textTokens_gap {gap : List Char} (isGap : IsGap gap) (n : Nat) (rest : List Char) :
    textTokens n (gap ++ rest) = textTokens (n + gap.count '\n') rest := by
  induction isGap generalizing n with
  | nil => rfl
  | @blank c gap separates _ ih =>
    rw [List.cons_append, textTokens_passed separates, ih, Nat.add_assoc, ← List.count_append,
      List.singleton_append]
  | @comment text gap whole _ ih =>
    have count : ('/' :: '/' :: text ++ '\n' :: gap).count '\n' = gap.count '\n' + 1 := by
      simp [List.count_eq_zero.mpr whole]
    calc textTokens n ('/' :: '/' :: text ++ '\n' :: gap ++ rest)
      _ = textTokens n ('/' :: '/' :: (text ++ '\n' :: (gap ++ rest))) := by simp
      _ = textTokens n ('\n' :: (gap ++ rest)) := textTokens_comment_line whole (by simp)
      _ = textTokens (n + 1 + gap.count '\n') rest := by rw [textTokens_feed, ih]
      _ = textTokens (n + ('/' :: '/' :: text ++ '\n' :: gap).count '\n') rest := by
        rw [count]
        congr 1
        omega

theorem textTokens_lastGap {last : List Char} (isLast : IsLastGap last) (n : Nat) :
    textTokens n last = .ok [] := by
  cases isLast with
  | ended isGap =>
    have read := textTokens_gap isGap n []
    rwa [List.append_nil, textTokens_nil] at read
  | @comment gap text isGap whole =>
    rw [textTokens_gap isGap, ← List.append_nil text, textTokens_comment_line whole (by simp),
      textTokens_nil]

/-- A character that a lexeme would take behind itself. -/
def continues : Token.Kind → Char → Bool
  | .identifier, c => isIdentifierRest c
  | _, c => c.isDigit

theorem isWordChar_of_continues {kind : Token.Kind} {c : Char} (more : continues kind c) :
    isWordChar c := by
  cases kind with
  | identifier => exact Assembly.isWordChar_of (p := isIdentifierRest) (by decide) more
  | number | endOfInput => exact Assembly.isWordChar_of (p := Char.isDigit) (by decide) more

namespace IsLexeme

variable {kind : Token.Kind} {text : List Char}

theorem ne_nil (lexeme : IsLexeme kind text) : text ≠ [] := by
  cases lexeme with
  | identifier identifier => exact identifier.ne_nil
  | number some _ => exact some

theorem ne_endOfInput (lexeme : IsLexeme kind text) : kind ≠ .endOfInput := by
  rintro rfl
  cases lexeme

theorem all (lexeme : IsLexeme kind text) : ∀ c ∈ text, continues kind c := by
  cases lexeme with
  | identifier identifier => exact identifier.all
  | number _ digits => exact digits

theorem inline (lexeme : IsLexeme kind text) : '\n' ∉ text := by
  intro feed
  exact absurd (isWordChar_of_continues (lexeme.all _ feed)) (by decide)

theorem read (lexeme : IsLexeme kind text) {rest : List Char}
    (stop : ∀ c ∈ rest.head?, continues kind c = false) (n : Nat) :
    textTokens n (text ++ rest) =
      joined (.ok [⟨kind, String.ofList text, n⟩]) (textTokens n rest) := by
  cases lexeme with
  | identifier identifier => exact textTokens_identifier identifier stop
  | number some digits => exact textTokens_number some digits stop

end IsLexeme

/-- The induction on sources, with identifiers and numbers as one case. -/
@[elab_as_elim]
theorem lexeme_induction {motive : List Char → Prop} (nil : motive [])
    (blank : ∀ c rest, Text.isBlank c → motive rest → motive (c :: rest))
    (comment : ∀ text, motive (text.dropWhile (· ≠ '\n')) → motive ('/' :: '/' :: text))
    (lexeme : ∀ kind text rest, IsLexeme kind text →
      (∀ c ∈ rest.head?, continues kind c = false) → motive rest → motive (text ++ rest))
    (stray : ∀ c rest, Stray c rest → motive (c :: rest)) (source : List Char) : motive source := by
  induction source using source_induction with
  | nil => exact nil
  | blank c rest separates ih => exact blank c rest separates ih
  | comment text ih => exact comment text ih
  | number digits rest some every stop ih =>
    exact lexeme .number digits rest (.number some every) stop ih
  | identifier name rest identifier stop ih =>
    exact lexeme .identifier name rest (.identifier identifier) stop ih
  | stray c rest stray' => exact stray c rest stray'

/-- No gap continues a lexeme. -/
theorem gap_stops {gap : List Char} (isGap : IsGap gap) (kind : Token.Kind) :
    ∀ c ∈ gap.head?, continues kind c = false := by
  intro c first
  by_contra more
  have word := isWordChar_of_continues (Bool.eq_true_of_not_eq_false more)
  rw [isGap.stop c first] at word
  contradiction

theorem lastGap_stops {last : List Char} (isLast : IsLastGap last) (kind : Token.Kind) :
    ∀ c ∈ last.head?, continues kind c = false := by
  cases isLast with
  | ended isGap => exact gap_stops isGap kind
  | @comment gap text isGap whole =>
    intro c first
    rw [List.head?_append] at first
    cases start : gap.head? with
    | none =>
      rw [start] at first
      obtain rfl : '/' = c := Option.some.inj first
      cases kind <;> decide
    | some other =>
      rw [start] at first
      exact gap_stops isGap kind c (start.trans first)

section Separated

variable {piece : Piece} {rest : List Piece} {last : List Char}

theorem Separated.tail (separated : Separated (piece :: rest) last) : Separated rest last := by
  obtain ⟨gaps, lexemes, apart, last⟩ := separated
  exact ⟨(List.forall_mem_cons.mp gaps).2, (List.forall_mem_cons.mp lexemes).2, apart.tail, last⟩

/-- What is written behind a lexeme does not continue it. -/
theorem Separated.stop (separated : Separated (piece :: rest) last) :
    ∀ c ∈ (written rest last).head?, continues piece.kind c = false := by
  cases rest with
  | nil => exact lastGap_stops separated.last piece.kind
  | cons next rest =>
    have isGap := separated.gaps next (by simp)
    have lexeme := separated.lexemes next (by simp)
    intro c first
    rw [written, List.append_assoc, List.head?_append] at first
    cases start : next.gap.head? with
    | some other =>
      rw [start] at first
      exact gap_stops isGap piece.kind c (start.trans first)
    | none =>
      obtain ⟨number, name⟩ := (List.isChain_cons_cons.mp separated.apart).1.resolve_left
        (not_not_intro (List.head?_eq_none_iff.mp start))
      rw [number]
      rw [name] at lexeme
      cases lexeme with
      | identifier identifier =>
        obtain ⟨letter, others, text, opens, _⟩ := identifier
        rw [start, text] at first
        obtain rfl : letter = c := Option.some.inj first
        exact isDigit_of_isIdentifierStart opens

end Separated

theorem textTokens_written {pieces : List Piece} {last : List Char}
    (separated : Separated pieces last) (before : List Char) :
    ∃ tokens, textTokens (1 + before.count '\n') (written pieces last) = .ok tokens ∧
      tokens ++ [⟨.endOfInput, "", 1 + (before ++ written pieces last).count '\n'⟩] =
        tokensBehind before pieces last := by
  induction pieces generalizing before with
  | nil => exact ⟨[], textTokens_lastGap separated.last _, rfl⟩
  | cons piece rest ih =>
    have lexeme := separated.lexemes piece List.mem_cons_self
    have isGap := separated.gaps piece List.mem_cons_self
    obtain ⟨tokens, read, same⟩ := ih separated.tail (before ++ piece.gap ++ piece.text)
    have line : 1 + (before ++ piece.gap ++ piece.text).count '\n' =
        1 + (before ++ piece.gap).count '\n' := by
      rw [List.count_append, List.count_eq_zero.mpr lexeme.inline]
      rfl
    rw [line] at read
    refine ⟨⟨piece.kind, String.ofList piece.text, 1 + (before ++ piece.gap).count '\n'⟩ :: tokens,
      ?_, ?_⟩
    · rw [written, List.append_assoc, textTokens_gap isGap, Nat.add_assoc, ← List.count_append,
        lexeme.read separated.stop, read]
      rfl
    · rw [tokensBehind, ← same, written]
      simp only [List.append_assoc, List.cons_append]

/-- Only identifiers are read as such. -/
theorem identifier_of_textTokens {source : List Char} {n : Nat} {tokens : List Token}
    (read : textTokens n source = .ok tokens) :
    ∀ token ∈ tokens, token.kind = .identifier → IsIdentifier token.text.toList := by
  induction source using lexeme_induction generalizing n tokens with
  | nil =>
    obtain rfl := Except.ok.inj read
    exact nofun
  | blank c rest separates ih =>
    rw [textTokens_passed separates] at read
    exact ih read
  | comment text ih =>
    rw [textTokens_comment] at read
    exact ih read
  | lexeme kind text rest lexeme stop ih =>
    rw [lexeme.read stop, joined_eq_ok] at read
    obtain ⟨later, read, rfl⟩ := read
    rw [List.singleton_append, List.forall_mem_cons, String.toList_ofList]
    refine ⟨?_, ih read⟩
    rintro rfl
    cases lexeme with
    | identifier identifier => exact identifier
  | stray c rest stray =>
    rw [textTokens_stray stray] at read
    contradiction

theorem isSymbol_iff {name : String} :
    isSymbol name ↔ IsIdentifier name.toList ∧ '-' ∉ name.toList := by
  constructor
  · intro symbol
    refine ⟨isIdentifier_of_isSymbol symbol, ?_⟩
    unfold isSymbol at symbol
    split at symbol
    · contradiction
    · rename_i first rest text
      simp only [Bool.and_eq_true, List.all_eq_true, decide_eq_true_eq] at symbol
      rw [text, List.mem_cons, not_or]
      constructor
      · rintro rfl
        exact absurd symbol.1 (by decide)
      · exact fun hyphen => (symbol.2 '-' hyphen).2 rfl
  · rintro ⟨⟨first, rest, text, start, others⟩, bare⟩
    rw [text, List.mem_cons, not_or] at bare
    simp only [isSymbol, text, Bool.and_eq_true, List.all_eq_true, decide_eq_true_eq]
    refine ⟨start, fun c member => ⟨others c member, ?_⟩⟩
    rintro rfl
    exact bare.2 member

/-- A text is read as nothing but itself, as an identifier. -/
def IsSingle (name : String) : Prop :=
  ∃ s, tokenize name = .ok s ∧
    s.toList.map (fun token => (token.kind, token.text)) = [(.identifier, name), (.endOfInput, "")]

theorem isSingle_iff {name : String} : IsSingle name ↔ IsIdentifier name.toList := by
  constructor
  · rintro ⟨s, tokenized, single⟩
    rw [tokenize_eq] at tokenized
    cases read : textTokens 1 name.toList with
    | error e =>
      rw [read] at tokenized
      contradiction
    | ok tokens =>
      rw [read] at tokenized
      obtain rfl := Except.ok.inj tokenized
      rw [TokenStream.toList, List.map_append] at single
      have alone : tokens.map (fun token => (token.kind, token.text)) = [(.identifier, name)] :=
        List.append_cancel_right (single : _ = [_] ++ [(Token.Kind.endOfInput, "")])
      obtain ⟨token, rfl, same⟩ := List.map_eq_singleton_iff.mp alone
      obtain ⟨kind, rfl⟩ := Prod.mk.inj same
      exact identifier_of_textTokens read token (List.mem_singleton_self token) kind
  · intro identifier
    have read : textTokens 1 (name.toList ++ []) =
        joined (.ok [⟨.identifier, String.ofList name.toList, 1⟩]) (textTokens 1 []) :=
      textTokens_identifier identifier (by simp)
    rw [List.append_nil, textTokens_nil, nil_joined, String.ofList_toList] at read
    refine ⟨_, by rw [tokenize_eq, read]; rfl, rfl⟩

/-- Lexemes with any gaps around them are read as themselves, in their order and on their lines, and
then the input ends; and a symbol is a text that is read as a single identifier and has no hyphen. -/
theorem tokenize_written :
    (∀ pieces last, Separated pieces last →
      ∃ s, tokenize (String.ofList (written pieces last)) = .ok s ∧
        s.toList = tokensBehind [] pieces last) ∧
    ∀ name, isSymbol name ↔ IsSingle name ∧ '-' ∉ name.toList := by
  constructor
  · intro pieces last separated
    obtain ⟨tokens, read, same⟩ := textTokens_written separated []
    rw [List.nil_append, Nat.add_comm] at same
    refine ⟨⟨tokens, (written pieces last).count '\n' + 1⟩, ?_, same⟩
    rw [tokenize_eq, String.toList_ofList]
    exact congrArg (Except.map _) read
  · intro name
    rw [isSymbol_iff, isSingle_iff]

theorem tokenize_written_touching :
    ∃ s, tokenize "\t// é\n12abc//\nif-goto // é" = .ok s ∧
      s.toList = [⟨.number, "12", 2⟩, ⟨.identifier, "abc", 2⟩, ⟨.identifier, "if-goto", 3⟩,
        ⟨.endOfInput, "", 3⟩] := by
  let pieces : List Piece := [⟨['\t', '/', '/', ' ', 'é', '\n'], .number, ['1', '2']⟩,
    ⟨[], .identifier, ['a', 'b', 'c']⟩,
    ⟨['/', '/', '\n'], .identifier, ['i', 'f', '-', 'g', 'o', 't', 'o']⟩]
  have whole : '\n' ∉ [' ', 'é'] := by decide
  have comment : IsGap ['/', '/', ' ', 'é', '\n'] := .comment whole .nil
  have empty : IsGap ['/', '/', '\n'] := .comment List.not_mem_nil .nil
  have blank : IsGap [' '] := .blank (by decide) .nil
  have separated : Separated pieces [' ', '/', '/', ' ', 'é'] := by
    constructor
    · simp only [pieces, List.forall_mem_cons]
      exact ⟨.blank (by decide) comment, .nil, empty, nofun⟩
    · simp only [pieces, List.forall_mem_cons]
      exact ⟨.number (List.cons_ne_nil _ _) (List.all_eq_true.mp (by decide)),
        .identifier ⟨'a', _, rfl, by decide, List.all_eq_true.mp (by decide)⟩,
        .identifier ⟨'i', _, rfl, by decide, List.all_eq_true.mp (by decide)⟩, nofun⟩
    · simp [pieces, Piece.Apart]
    · exact .comment blank whole
  exact tokenize_written.1 pieces [' ', '/', '/', ' ', 'é'] separated

end HackToolchain.Vm
