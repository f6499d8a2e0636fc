import HackToolchain.Proofs.Vm.Scanning

/-! What a printed instruction is read as: its words are tokens again, whatever names it has, and the
tokens spell it. -/
namespace HackToolchain.Vm

open Assembly (isWordChar takeWhile_all dropWhile_all)

/-- A token that is read from its text, wherever it stands alone. -/
structure Token.Legible (token : Token) : Prop where
  read : wordTokens token.line token.text.toList = .ok [token]
  some : token.text.toList ≠ []
  plain : ∀ c ∈ token.text.toList, isWordChar c

theorem Token.legible_word {name : String} (identifier : IsIdentifier name.toList) (line : Nat) :
    (Token.word line name).Legible := by
  have read : wordTokens line (name.toList ++ []) =
      joined (.ok [⟨.identifier, String.ofList name.toList, line⟩]) (.ok []) :=
    wordTokens_identifier identifier (by simp)
  rw [List.append_nil, String.ofList_toList] at read
  constructor
  · exact read
  · exact identifier.ne_nil
  · exact fun c member => Assembly.isWordChar_of (by decide) (identifier.all c member)

theorem Token.legible_digits (line n : Nat) : (Token.digits line n.repr).Legible := by
  have every : ∀ c ∈ n.repr.toList, c.isDigit := fun _ => Text.isDigit_of_mem_repr
  have some : n.repr.toList ≠ [] := by simp [Nat.toList_repr, Nat.toDigits_ne_nil]
  have read : wordTokens line (n.repr.toList ++ []) =
      joined (.ok [⟨.number, String.ofList n.repr.toList, line⟩]) (.ok []) :=
    wordTokens_number some every (by simp)
  rw [List.append_nil, String.ofList_toList] at read
  constructor
  · exact read
  · exact some
  · exact fun c member => Assembly.isWordChar_of (by decide) (every c member)

/-- Words with one blank between any two. -/
def spaced (words : List (List Char)) : List Char :=
  [' '].intercalate words

theorem spaced_cons (word next : List Char) (rest : List (List Char)) :
    spaced (word :: next :: rest) = word ++ ' ' :: spaced (next :: rest) := by
  simp [spaced, List.intercalate_cons_cons]

theorem words_spaced {words : List (List Char)} (some : ∀ word ∈ words, word ≠ [])
    (unbroken : ∀ word ∈ words, ∀ c ∈ word, Text.isBlank c = false) :
    Text.words (spaced words) = words := by
  induction words with
  | nil => rfl
  | cons word rest ih =>
    rw [List.forall_mem_cons] at some unbroken
    cases rest with
    | nil =>
      have alone : Text.words (word ++ []) = word :: Text.words [] :=
        Assembly.words_word some.1 unbroken.1 (by simp)
      rw [List.append_nil] at alone
      rw [spaced, List.intercalate_singleton]
      exact alone
    | cons next others =>
      rw [spaced_cons, Assembly.words_word some.1 unbroken.1 (by simp [Text.isBlank]),
        Assembly.words_blank (by decide), ih some.2 unbroken.2]

theorem mem_spaced {words : List (List Char)} {c : Char} (member : c ∈ spaced words) :
    c = ' ' ∨ ∃ word ∈ words, c ∈ word := by
  induction words with
  | nil => contradiction
  | cons word rest ih =>
    cases rest with
    | nil =>
      rw [spaced, List.intercalate_singleton] at member
      exact .inr ⟨word, .head _, member⟩
    | cons next others =>
      rw [spaced_cons, List.mem_append, List.mem_cons] at member
      rcases member with here | blank | later
      · exact .inr ⟨word, .head _, here⟩
      · exact .inl blank
      · obtain found | ⟨other, there, found⟩ := ih later
        · exact .inl found
        · exact .inr ⟨other, .tail _ there, found⟩

section Legible

variable {tokens : List Token} (legible : ∀ token ∈ tokens, token.Legible)
include legible

theorem isWordChar_spaced {c : Char}
    (member : c ∈ spaced (tokens.map fun token => token.text.toList)) :
    c = ' ' ∨ isWordChar c := by
  obtain blank | ⟨word, there, member⟩ := mem_spaced member
  · exact .inl blank
  · obtain ⟨token, written, rfl⟩ := List.mem_map.mp there
    exact .inr ((legible token written).plain c member)

theorem lineTokens_spaced {line : Nat} (here : ∀ token ∈ tokens, token.line = line) :
    lineTokens (spaced (tokens.map fun token => token.text.toList)) line = .ok tokens := by
  have bare : '/' ∉ spaced (tokens.map fun token => token.text.toList) := by
    intro member
    have := isWordChar_spaced legible member
    revert this
    decide
  have unbroken : ∀ token ∈ tokens, ∀ c ∈ token.text.toList, Text.isBlank c = false := by
    intro token there c member
    have plain := (legible token there).plain c member
    simp only [isWordChar, Bool.and_eq_true, Bool.not_eq_true'] at plain
    exact plain.1
  refine lineTokens_eq_ok.mpr ⟨tokens.map ([·]), ?_,
    (List.flatMap_def ..).symm.trans (List.flatMap_singleton' tokens)⟩
  rw [beforeComment_of_not_mem bare,
    words_spaced (List.forall_mem_map.mpr fun token there => (legible token there).some)
      (List.forall_mem_map.mpr unbroken),
    List.forall₂_map_left_iff, List.forall₂_map_right_iff, List.forall₂_same]
  exact fun token there => here token there ▸ (legible token there).read

end Legible

/-- The tokens that an instruction is printed as. -/
def Instruction.tokens (line : Nat) : Instruction → List Token
  | .arithmetic op => [.word line op.name]
  | .push segment index =>
    [.word line "push", .word line segment.name, .digits line index.toNat.repr]
  | .pop segment index =>
    [.word line "pop", .word line segment.name, .digits line index.toNat.repr]
  | .label name => [.word line "label", .word line name]
  | .goto target => [.word line "goto", .word line target]
  | .ifGoto target => [.word line "if-goto", .word line target]
  | .function name locals =>
    [.word line "function", .word line name, .digits line locals.toNat.repr]
  | .call name arguments =>
    [.word line "call", .word line name, .digits line arguments.toNat.repr]
  | .return => [.word line "return"]

namespace Instruction

variable {i : Instruction}

theorem line_tokens (line : Nat) (i : Instruction) : ∀ token ∈ i.tokens line, token.line = line := by
  cases i <;> simp [tokens]

theorem toList_text (i : Instruction) (line : Nat) :
    i.text.toList = spaced ((i.tokens line).map fun token => token.text.toList) := by
  cases i <;> simp [text, pieces, tokens, spaced, List.intercalate, List.intersperse]

theorem legible_tokens (named : i.Named) (line : Nat) :
    ∀ token ∈ i.tokens line, token.Legible := by
  have symbol {name : String} (symbol : isSymbol name) : (Token.word line name).Legible :=
    Token.legible_word (isIdentifier_of_isSymbol symbol) line
  have hyphened : (Token.word line "if-goto").Legible :=
    Token.legible_word ⟨'i', "f-goto".toList, rfl, by decide, List.all_eq_true.mp (by decide)⟩ line
  have segment (segment : Segment) : (Token.word line segment.name).Legible := by
    cases segment <;> exact symbol (by decide)
  have number (count : UInt16) : (Token.digits line count.toNat.repr).Legible :=
    Token.legible_digits line count.toNat
  cases i with
  | arithmetic op => cases op <;> exact List.forall_mem_singleton.mpr (symbol (by decide))
  | «return» => exact List.forall_mem_singleton.mpr (symbol (by decide))
  | ifGoto target =>
    simp only [tokens, List.forall_mem_cons]
    exact ⟨hyphened, symbol named, nofun⟩
  | label name | goto name =>
    simp only [tokens, List.forall_mem_cons]
    exact ⟨symbol (by decide), symbol named, nofun⟩
  | push place index | pop place index =>
    simp only [tokens, List.forall_mem_cons]
    exact ⟨symbol (by decide), segment place, number index, nofun⟩
  | function name count | call name count =>
    simp only [tokens, List.forall_mem_cons]
    exact ⟨symbol (by decide), symbol named, number count, nofun⟩

theorem spells_tokens (named : i.Named) (line : Nat) : Spells line (i.tokens line) i := by
  have value (count : UInt16) : Nat.ofDigitChars 10 count.toNat.repr.toList 0 = count.toNat :=
    value_of_decimal? (Text.decimal?_repr (Nat.le_refl count.toNat))
  cases i with
  | arithmetic op => exact .arithmetic op
  | push segment index => exact .push segment (value index)
  | pop segment index => exact .pop segment (value index)
  | label name => exact .label named
  | goto target => exact .goto named
  | ifGoto target => exact .ifGoto named
  | function name locals => exact .function named (value locals)
  | call name arguments => exact .call named (value arguments)
  | «return» => exact .return

end Instruction

/-- Instructions printed one below the other. -/
def printed : List Instruction → String
  | [] => ""
  | [i] => i.text
  | i :: rest => i.text ++ "\n" ++ printed rest

end HackToolchain.Vm
