import HackToolchain.Proofs.Assembly.Spelling

/-! Where words end. A reader of instructions stops where its word stops, whatever text follows the
word, and finds in it what it finds in the word alone. -/
namespace HackToolchain.Assembly

theorem takeLabel_closed {word rest : List Char} {symbol : String}
    (taken : takeSymbol word = .ok (symbol, ')' :: rest)) :
    takeLabel word = .ok (.label symbol, rest) := by
  rw [takeLabel, taken]
  rfl

theorem takeLabel_unclosed {word rest : List Char} {symbol : String}
    (taken : takeSymbol word = .ok (symbol, rest)) (sign : rest.head? ≠ some ')') :
    takeLabel word = .error (.unclosedLabel symbol) := by
  rw [takeLabel, taken, ok_bind]
  split
  · rename_i same
    obtain ⟨rfl, rfl⟩ := Prod.mk.inj same
    exact absurd rfl sign
  · rename_i same
    obtain ⟨rfl, rfl⟩ := Prod.mk.inj same
    rfl

theorem takeJump_plain {text : List Char} (sign : text.head? ≠ some ';') :
    takeJump text = .ok (none, text) := by
  unfold takeJump
  split
  · exact absurd rfl sign
  · rfl

theorem takeInstruction_plain {c : Char} (address : c ≠ '@') (label : c ≠ '(')
    (word : List Char) : takeInstruction (c :: word) = takeCompute (c :: word) := by
  simp [takeInstruction, address, label]

variable {rest : List Char} (stop : ∀ c ∈ rest.head?, isWordChar c = false)

include stop

theorem ne_head {c : Char} (inside : isWordChar c) : rest.head? ≠ some c := by
  intro first
  rw [stop c first] at inside
  contradiction

section Scan

variable {p : Char → Bool} (inside : ∀ c, p c → isWordChar c) (word : List Char)

include inside

theorem stop_append : ∀ c ∈ (word.dropWhile p ++ rest).head?, p c = false := by
  intro c first
  cases left : word.dropWhile p with
  | nil =>
    rw [left] at first
    by_contra other
    exact ne_head stop (inside c (by simpa using other)) first
  | cons d later =>
    rw [left] at first
    exact stop_dropWhile p word c (left ▸ first)

theorem takeWhile_word : (word ++ rest).takeWhile p = word.takeWhile p := by
  have all : ∀ c ∈ word.takeWhile p, p c := fun _ => List.mem_takeWhile_imp
  have taken := takeWhile_all all (stop_append stop inside word)
  rwa [← List.append_assoc, List.takeWhile_append_dropWhile] at taken

theorem dropWhile_word : (word ++ rest).dropWhile p = word.dropWhile p ++ rest := by
  have all : ∀ c ∈ word.takeWhile p, p c := fun _ => List.mem_takeWhile_imp
  have dropped := dropWhile_all all (stop_append stop inside word)
  rwa [← List.append_assoc, List.takeWhile_append_dropWhile] at dropped

end Scan

theorem takeSymbol_word (word : List Char) :
    takeSymbol (word ++ rest) = (takeSymbol word).map (Prod.map id (· ++ rest)) := by
  have inside (c : Char) : isSymbolChar c → isWordChar c := isWordChar_of_isSymbolChar
  rw [takeSymbol, takeSymbol, takeWhile_word stop inside, dropWhile_word stop inside]
  split <;> rfl

theorem takeAddress_word (word : List Char) :
    takeAddress (word ++ rest) = (takeAddress word).map (Prod.map id (· ++ rest)) := by
  rw [takeAddress, takeAddress, takeSymbol_word stop]
  cases takeSymbol word <;> rfl

theorem head?_append_ne {c : Char} (inside : isWordChar c) {left : List Char}
    (sign : left.head? ≠ some c) : (left ++ rest).head? ≠ some c := by
  cases left with
  | nil => exact ne_head stop inside
  | cons d left => exact sign

theorem takeLabel_word (word : List Char) :
    takeLabel (word ++ rest) = (takeLabel word).map (Prod.map id (· ++ rest)) := by
  have whole := takeSymbol_word stop word
  cases taken : takeSymbol word with
  | error fault =>
    rw [taken] at whole
    rw [takeLabel, takeLabel, taken, whole]
    rfl
  | ok answer =>
    obtain ⟨symbol, left⟩ := answer
    rw [taken] at whole
    by_cases sign : left.head? = some ')'
    · obtain ⟨left, rfl⟩ := List.head?_eq_some_iff.mp sign
      rw [takeLabel_closed taken, takeLabel_closed whole]
      rfl
    · rw [takeLabel_unclosed taken sign,
        takeLabel_unclosed whole (head?_append_ne stop (by decide) sign)]
      rfl

theorem takeJump_word (text : List Char) :
    takeJump (text ++ rest) = (takeJump text).map (Prod.map id (· ++ rest)) := by
  have inside (c : Char) : c.isUpper → isWordChar c := isWordChar_of (by decide)
  by_cases sign : text.head? = some ';'
  · obtain ⟨text, rfl⟩ := List.head?_eq_some_iff.mp sign
    rw [List.cons_append, takeJump, takeJump, takeWhile_word stop inside,
      dropWhile_word stop inside]
    cases Jump.ofName? (String.ofList (text.takeWhile Char.isUpper)) <;> rfl
  · rw [takeJump_plain sign, takeJump_plain (head?_append_ne stop (by decide) sign)]
    rfl

theorem takeComputing_word (dest : Machine.Destination) (expression : List Char) :
    takeComputing dest (expression ++ rest) =
      (takeComputing dest expression).map (Prod.map id (· ++ rest)) := by
  have inside (c : Char) : isCompChar c → isWordChar c := isWordChar_of_isCompChar
  rw [takeComputing, takeComputing, takeWhile_word stop inside, dropWhile_word stop inside,
    takeJump_word stop]
  cases Comp.ofChars (expression.takeWhile isCompChar) with
  | error fault => rfl
  | ok comp => cases takeJump (expression.dropWhile isCompChar) <;> rfl

theorem takeCompute_word (word : List Char) :
    takeCompute (word ++ rest) = (takeCompute word).map (Prod.map id (· ++ rest)) := by
  have inside (c : Char) : isCompChar c → isWordChar c := isWordChar_of_isCompChar
  by_cases sign : (word.dropWhile isCompChar).head? = some '='
  · obtain ⟨expression, equals⟩ := List.head?_eq_some_iff.mp sign
    have longer : (word ++ rest).dropWhile isCompChar = '=' :: (expression ++ rest) := by
      rw [dropWhile_word stop inside, equals, List.cons_append]
    rw [takeCompute_equals equals, takeCompute_equals longer, takeWhile_word stop inside]
    cases Destination.ofLetters (word.takeWhile isCompChar) with
    | error fault => rfl
    | ok dest => exact takeComputing_word stop dest expression
  · have longer : ((word ++ rest).dropWhile isCompChar).head? ≠ some '=' := by
      rw [dropWhile_word stop inside]
      exact head?_append_ne stop (by decide) sign
    rw [takeCompute_plain sign, takeCompute_plain longer, takeComputing_word stop]

theorem takeInstruction_word {word : List Char} (some : word ≠ []) :
    takeInstruction (word ++ rest) = (takeInstruction word).map (Prod.map id (· ++ rest)) := by
  obtain ⟨c, word, rfl⟩ := List.exists_cons_of_ne_nil some
  by_cases address : c = '@'
  · exact address ▸ takeAddress_word stop word
  by_cases label : c = '('
  · exact label ▸ takeLabel_word stop word
  rw [takeInstruction_plain address label, List.cons_append, takeInstruction_plain address label,
    ← List.cons_append]
  exact takeCompute_word stop (c :: word)

end HackToolchain.Assembly
