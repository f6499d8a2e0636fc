import HackToolchain.Proofs.Assembly.Reading

/-! How instructions are spelled. A word is read as an instruction exactly if it is one of the
spellings of that instruction, and every instruction that can be written has one. -/
namespace HackToolchain.Assembly

/-- A text that can stand for a symbol. -/
def IsSymbolText (symbol : String) : Prop :=
  symbol.toList ≠ [] ∧ ∀ c ∈ symbol.toList, isSymbolChar c

instance : DecidablePred IsSymbolText := fun symbol =>
  decidable_of_iff (symbol.toList ≠ [] ∧ symbol.toList.all isSymbolChar) (by simp [IsSymbolText])

/-- An expression that can be read: signs stand before one operand and operators between two. -/
def Comp.Writable : Comp → Prop
  | .unary none _ => True
  | .unary (some op) _ => op = .minus ∨ op = .not
  | .binary _ op _ => op ≠ .not

def Instruction.Writable : Instruction → Prop
  | .address symbol | .label symbol => IsSymbolText symbol
  | .compute _ comp _ => comp.Writable

/-- The written form of a jump with its semicolon. -/
def branchChars : Option Jump → List Char
  | none => []
  | some jump => ';' :: jump.name.toList

/-- What may stand for a destination: nothing, or an equals sign behind letters of the three places
in any order and number. -/
inductive IsTarget : Machine.Destination → List Char → Prop where
  | absent : IsTarget ⟨false, false, false⟩ []
  | letters {letters : List Char} (named : ∀ c ∈ letters, ['A', 'D', 'M'].contains c) :
    IsTarget ⟨letters.contains 'A', letters.contains 'D', letters.contains 'M'⟩ (letters ++ ['='])

/-- The spellings of an instruction. Only the letters of a destination leave a choice. -/
inductive Instruction.Spelled : Instruction → List Char → Prop where
  | address {symbol : String} (legal : IsSymbolText symbol) :
    Spelled (.address symbol) ('@' :: symbol.toList)
  | label {symbol : String} (legal : IsSymbolText symbol) :
    Spelled (.label symbol) ('(' :: (symbol.toList ++ [')']))
  | compute {dest : Machine.Destination} {target : List Char} {comp : Comp}
    (names : IsTarget dest target) (writable : comp.Writable) (jump : Option Jump) :
    Spelled (.compute dest comp jump) (target ++ (comp.chars ++ branchChars jump))

theorem takeSymbol_text {symbol : String} (legal : IsSymbolText symbol) {rest : List Char}
    (stop : ∀ c ∈ rest.head?, isSymbolChar c = false) :
    takeSymbol (symbol.toList ++ rest) = .ok (symbol, rest) := by
  rw [takeSymbol, takeWhile_all legal.2 stop, dropWhile_all legal.2 stop]
  simp [legal.1]

theorem isCompChar_chars (comp : Comp) : ∀ c ∈ comp.chars, isCompChar c := by
  have operand (x : Operand) : isCompChar x.char := by cases x <;> decide
  have operator (op : Operator) : isCompChar op.char := by cases op <;> decide
  cases comp with
  | unary op x => cases op <;> simp [Comp.chars, operand, operator]
  | binary left op right => simp [Comp.chars, operand, operator]

theorem chars_ne_nil (comp : Comp) : comp.chars ≠ [] := by
  cases comp with
  | unary op x => cases op <;> simp [Comp.chars]
  | binary left op right => simp [Comp.chars]

theorem ofChars_chars {comp : Comp} (writable : comp.Writable) :
    Comp.ofChars comp.chars = .ok comp := by
  cases comp with
  | unary op x =>
    cases op with
    | none => cases x <;> rfl
    | some op => rcases writable with rfl | rfl <;> cases x <;> rfl
  | binary left op right =>
    cases op with
    | not => contradiction
    | plus | minus | and | or => cases left <;> cases right <;> rfl

theorem takeJump_branchChars (jump : Option Jump) :
    takeJump (branchChars jump) = .ok (jump, []) := by
  cases jump with
  | none => rfl
  | some jump => cases jump <;> decide

theorem branchChars_head (jump : Option Jump) :
    ∀ c ∈ (branchChars jump).head?, isCompChar c = false := by
  cases jump with
  | none => simp [branchChars]
  | some jump =>
    simp only [branchChars, List.head?_cons, Option.mem_def, Option.some.injEq]
    rintro _ rfl
    decide

theorem isCompChar_letter {c : Char} (letter : ['A', 'D', 'M'].contains c) : isCompChar c := by
  have letters : ∀ c ∈ ['A', 'D', 'M'], isCompChar c := List.all_eq_true.mp (by decide)
  exact letters c (List.contains_iff_mem.mp letter)

/-- A computing instruction from its expression on. -/
def takeComputing (dest : Machine.Destination) (expression : List Char) :
    Except Fault (Instruction × List Char) := do
  let comp ← Comp.ofChars (expression.takeWhile isCompChar)
  let (jump, rest) ← takeJump (expression.dropWhile isCompChar)
  return (.compute dest comp jump, rest)

theorem takeCompute_equals {word expression : List Char}
    (sign : word.dropWhile isCompChar = '=' :: expression) :
    takeCompute word =
      (Destination.ofLetters (word.takeWhile isCompChar) >>= (takeComputing · expression)) := by
  rw [takeCompute, sign]
  cases Destination.ofLetters (word.takeWhile isCompChar) <;> rfl

theorem takeCompute_plain {word : List Char}
    (sign : (word.dropWhile isCompChar).head? ≠ some '=') :
    takeCompute word = takeComputing ⟨false, false, false⟩ word := by
  rw [takeCompute]
  split
  · rename_i equals
    simp [equals] at sign
  · rfl

theorem takeComputing_chars (dest : Machine.Destination) {comp : Comp} (writable : comp.Writable)
    (jump : Option Jump) : takeComputing dest (comp.chars ++ branchChars jump) =
      .ok (.compute dest comp jump, []) := by
  rw [takeComputing, takeWhile_all (isCompChar_chars comp) (branchChars_head jump),
    dropWhile_all (isCompChar_chars comp) (branchChars_head jump), ofChars_chars writable,
    takeJump_branchChars]
  rfl

theorem takeCompute_spelled {dest : Machine.Destination} {target : List Char} {comp : Comp}
    (names : IsTarget dest target) (writable : comp.Writable) (jump : Option Jump) :
    takeCompute (target ++ (comp.chars ++ branchChars jump)) =
      .ok (.compute dest comp jump, []) := by
  cases names with
  | absent =>
    have sign : ((comp.chars ++ branchChars jump).dropWhile isCompChar).head? ≠ some '=' := by
      rw [dropWhile_all (isCompChar_chars comp) (branchChars_head jump)]
      cases jump <;> simp [branchChars]
    rw [List.nil_append, takeCompute_plain sign, takeComputing_chars _ writable]
  | @letters letters named =>
    have comps : ∀ c ∈ letters, isCompChar c := fun c member => isCompChar_letter (named c member)
    have equals : ∀ c ∈ ('=' :: (comp.chars ++ branchChars jump)).head?, isCompChar c = false := by
      simp only [List.head?_cons, Option.mem_def, Option.some.injEq]
      rintro _ rfl
      decide
    have read : Destination.ofLetters letters =
        .ok ⟨letters.contains 'A', letters.contains 'D', letters.contains 'M'⟩ :=
      if_pos (List.all_eq_true.mpr named)
    rw [List.append_assoc, List.singleton_append, takeCompute_equals (dropWhile_all comps equals),
      takeWhile_all comps equals, read]
    exact takeComputing_chars _ writable jump

theorem takeInstruction_compute {word : List Char}
    (first : ∀ c ∈ word.head?, isCompChar c ∨ c = '=') :
    takeInstruction word = takeCompute word := by
  unfold takeInstruction
  split
  · exact absurd (first '@' rfl) (by decide)
  · exact absurd (first '(' rfl) (by decide)
  · rfl

theorem IsTarget.mem {dest : Machine.Destination} {target : List Char}
    (names : IsTarget dest target) {c : Char} (member : c ∈ target) : isCompChar c ∨ c = '=' := by
  cases names with
  | absent => contradiction
  | letters named =>
    rcases List.mem_append.mp member with letter | sign
    · exact .inl (isCompChar_letter (named c letter))
    · exact .inr (List.mem_singleton.mp sign)

theorem IsTarget.head {dest : Machine.Destination} {target : List Char}
    (names : IsTarget dest target) (comp : Comp) (jump : Option Jump) :
    ∀ c ∈ (target ++ (comp.chars ++ branchChars jump)).head?, isCompChar c ∨ c = '=' := by
  intro c head
  rw [List.head?_append, List.head?_append, List.head?_eq_some_head (chars_ne_nil comp),
    Option.some_or] at head
  cases start : target.head? with
  | some other =>
    rw [start] at head
    obtain rfl := Option.some.inj head
    exact names.mem (List.mem_of_mem_head? start)
  | none =>
    rw [start] at head
    obtain rfl := Option.some.inj head
    exact .inl (isCompChar_chars comp _ (List.head_mem _))

theorem Instruction.Spelled.ofWord {i : Instruction} {word : List Char} (spelled : i.Spelled word) :
    Instruction.ofWord word = .ok i := by
  cases spelled with
  | @address symbol legal =>
    have read : takeSymbol (symbol.toList ++ []) = .ok (symbol, []) :=
      takeSymbol_text legal (by simp)
    rw [List.append_nil] at read
    rw [Instruction.ofWord, takeInstruction, takeAddress, read]
    rfl
  | @label symbol legal =>
    have read : takeSymbol (symbol.toList ++ [')']) = .ok (symbol, [')']) :=
      takeSymbol_text legal (by simp; decide)
    rw [Instruction.ofWord, takeInstruction, takeLabel, read]
    rfl
  | @compute dest target comp names writable jump =>
    rw [Instruction.ofWord, takeInstruction_compute (names.head comp jump),
      takeCompute_spelled names writable jump]
    rfl

theorem takeSymbol_eq_ok {word rest : List Char} {symbol : String}
    (taken : takeSymbol word = .ok (symbol, rest)) :
    word = symbol.toList ++ rest ∧ IsSymbolText symbol := by
  rw [takeSymbol] at taken
  split at taken
  · contradiction
  · rename_i some
    obtain ⟨rfl, rfl⟩ := Prod.mk.inj (Except.ok.inj taken)
    rw [String.toList_ofList, List.takeWhile_append_dropWhile]
    refine ⟨rfl, by simpa using some, fun c member => ?_⟩
    rw [String.toList_ofList] at member
    exact List.mem_takeWhile_imp member

theorem char_of_ofChar? {c : Char} {x : Operand} (found : Operand.ofChar? c = some x) :
    x.char = c := by
  simpa using List.find?_some found

theorem sign_of_ofChar? {c : Char} {op : Operator} (found : Operator.ofChar? c = some op) :
    op.char = c := by
  simpa using List.find?_some found

theorem ofChars_eq_ok {chars : List Char} {comp : Comp} (read : Comp.ofChars chars = .ok comp) :
    chars = comp.chars ∧ comp.Writable := by
  have found : Comp.ofChars? chars = some comp := by
    rw [Comp.ofChars] at read
    split at read
    · rename_i found
      rw [found, Except.ok.inj read]
    · contradiction
  unfold Comp.ofChars? at found
  split at found
  · obtain ⟨operand, first, rfl⟩ := Option.map_eq_some_iff.mp found
    obtain rfl := char_of_ofChar? first
    exact ⟨rfl, trivial⟩
  · obtain ⟨op, first, found⟩ := Option.bind_eq_some_iff.mp found
    obtain ⟨operand, second, found⟩ := Option.bind_eq_some_iff.mp found
    split at found
    · rename_i sign
      obtain rfl := Option.some.inj found
      obtain rfl := sign_of_ofChar? first
      obtain rfl := char_of_ofChar? second
      exact ⟨rfl, sign.symm⟩
    · contradiction
  · obtain ⟨left, first, found⟩ := Option.bind_eq_some_iff.mp found
    obtain ⟨op, second, found⟩ := Option.bind_eq_some_iff.mp found
    obtain ⟨right, third, found⟩ := Option.bind_eq_some_iff.mp found
    split at found
    · contradiction
    · rename_i operator
      obtain rfl := Option.some.inj found
      obtain rfl := char_of_ofChar? first
      obtain rfl := sign_of_ofChar? second
      obtain rfl := char_of_ofChar? third
      exact ⟨rfl, operator⟩
  · contradiction

theorem takeJump_eq_ok {text rest : List Char} {jump : Option Jump}
    (taken : takeJump text = .ok (jump, rest)) : text = branchChars jump ++ rest := by
  unfold takeJump at taken
  split at taken
  · rename_i text
    simp only at taken
    split at taken
    · rename_i jump found
      obtain ⟨rfl, rfl⟩ := Prod.mk.inj (Except.ok.inj taken)
      have named : jump.name = String.ofList (text.takeWhile Char.isUpper) := by
        simpa using List.find?_some found
      rw [branchChars, named, String.toList_ofList, List.cons_append,
        List.takeWhile_append_dropWhile]
    · contradiction
  · obtain ⟨rfl, rfl⟩ := Prod.mk.inj (Except.ok.inj taken)
    rfl

theorem ofLetters_eq_ok {letters : List Char} {dest : Machine.Destination}
    (read : Destination.ofLetters letters = .ok dest) : IsTarget dest (letters ++ ['=']) := by
  unfold Destination.ofLetters at read
  split at read
  · rename_i named
    exact Except.ok.inj read ▸ .letters (List.all_eq_true.mp named)
  · contradiction

/-- What stands behind a destination is an expression and a jump. -/
theorem takeComputing_eq_ok {dest : Machine.Destination} {target expression rest : List Char}
    {i : Instruction} (names : IsTarget dest target)
    (taken : takeComputing dest expression = .ok (i, rest)) :
    ∃ used, target ++ expression = used ++ rest ∧ i.Spelled used := by
  obtain ⟨comp, read, taken⟩ := bind_eq_ok taken
  obtain ⟨⟨jump, after⟩, branch, finished⟩ := bind_eq_ok taken
  obtain ⟨rfl, rfl⟩ := Prod.mk.inj (Except.ok.inj finished)
  obtain ⟨chars, writable⟩ := ofChars_eq_ok read
  have split := List.takeWhile_append_dropWhile (p := isCompChar) (l := expression)
  rw [chars, takeJump_eq_ok branch] at split
  refine ⟨_, ?_, .compute names writable jump⟩
  rw [← split]
  simp

theorem takeCompute_eq_ok {word rest : List Char} {i : Instruction}
    (taken : takeCompute word = .ok (i, rest)) : ∃ used, word = used ++ rest ∧ i.Spelled used := by
  by_cases sign : (word.dropWhile isCompChar).head? = some '='
  · obtain ⟨expression, equals⟩ := List.head?_eq_some_iff.mp sign
    rw [takeCompute_equals equals] at taken
    obtain ⟨dest, letters, taken⟩ := bind_eq_ok taken
    obtain ⟨used, whole, spelled⟩ := takeComputing_eq_ok (ofLetters_eq_ok letters) taken
    have split := List.takeWhile_append_dropWhile (p := isCompChar) (l := word)
    refine ⟨used, split.symm.trans ?_, spelled⟩
    rw [equals, ← whole, List.append_assoc]
    rfl
  · rw [takeCompute_plain sign] at taken
    exact takeComputing_eq_ok .absent taken

theorem takeInstruction_eq_ok {word rest : List Char} {i : Instruction}
    (taken : takeInstruction word = .ok (i, rest)) :
    ∃ used, word = used ++ rest ∧ i.Spelled used := by
  unfold takeInstruction at taken
  split at taken
  · rw [takeAddress] at taken
    obtain ⟨⟨symbol, _⟩, read, finished⟩ := bind_eq_ok taken
    obtain ⟨rfl, rfl⟩ := Prod.mk.inj (Except.ok.inj finished)
    obtain ⟨rfl, legal⟩ := takeSymbol_eq_ok read
    exact ⟨_, rfl, .address legal⟩
  · rw [takeLabel] at taken
    obtain ⟨⟨symbol, after⟩, read, finished⟩ := bind_eq_ok taken
    obtain ⟨rfl, legal⟩ := takeSymbol_eq_ok read
    split at finished
    · rename_i same
      obtain ⟨rfl, rfl⟩ := Prod.mk.inj same
      obtain ⟨rfl, rfl⟩ := Prod.mk.inj (Except.ok.inj finished)
      exact ⟨_, by simp, .label legal⟩
    · contradiction
  · exact takeCompute_eq_ok taken

/-- A word is read as an instruction exactly if it spells it, from its first character to its last.
-/
theorem ofWord_eq_ok {i : Instruction} {word : List Char} :
    Instruction.ofWord word = .ok i ↔ i.Spelled word := by
  constructor
  · intro read
    obtain ⟨⟨other, rest⟩, taken, finished⟩ := bind_eq_ok read
    cases rest with
    | cons c rest => contradiction
    | nil =>
      obtain rfl := Except.ok.inj finished
      obtain ⟨used, rfl, spelled⟩ := takeInstruction_eq_ok taken
      rwa [List.append_nil]
  · exact Instruction.Spelled.ofWord

theorem isWordChar_of_isSymbolChar {c : Char} (symbol : isSymbolChar c) : isWordChar c :=
  isWordChar_of (by decide) symbol

theorem isWordChar_of_isCompChar {c : Char} (comp : isCompChar c) : isWordChar c :=
  isWordChar_of (by decide) comp

theorem isWordChar_branchChars (jump : Option Jump) : ∀ c ∈ branchChars jump, isWordChar c := by
  cases jump with
  | none => simp [branchChars]
  | some jump => cases jump <;> exact List.all_eq_true.mp (by decide)

namespace Instruction.Spelled

variable {i : Instruction} {word : List Char}

theorem writable (spelled : i.Spelled word) : i.Writable := by
  cases spelled with
  | address legal => exact legal
  | label legal => exact legal
  | compute _ writable _ => exact writable

theorem isWordChar (spelled : i.Spelled word) : ∀ c ∈ word, isWordChar c := by
  cases spelled with
  | address legal =>
    rw [List.forall_mem_cons]
    exact ⟨by decide, fun c member => isWordChar_of_isSymbolChar (legal.2 c member)⟩
  | label legal =>
    rw [List.forall_mem_cons, List.forall_mem_append]
    exact ⟨by decide, fun c member => isWordChar_of_isSymbolChar (legal.2 c member),
      List.all_eq_true.mp (by decide)⟩
  | @compute dest target comp names writable jump =>
    rw [List.forall_mem_append, List.forall_mem_append]
    refine ⟨?_, fun c member => isWordChar_of_isCompChar (isCompChar_chars comp c member),
      isWordChar_branchChars jump⟩
    intro c member
    rcases names.mem member with letter | rfl
    · exact isWordChar_of_isCompChar letter
    · decide

theorem ne_nil (spelled : i.Spelled word) : word ≠ [] := by
  cases spelled with
  | address | label => simp
  | compute => simp [chars_ne_nil]

end Instruction.Spelled

theorem ofLetters_destinationLetters (dest : Machine.Destination) :
    Destination.ofLetters (destinationLetters dest) = .ok dest := by
  obtain ⟨a, d, m⟩ := dest
  cases a <;> cases d <;> cases m <;> decide

theorem destinationLetters_eq_nil {dest : Machine.Destination}
    (none : destinationLetters dest = []) :
    dest = ⟨false, false, false⟩ := by
  have read := ofLetters_destinationLetters dest
  rw [none] at read
  exact (Except.ok.inj read).symm

/-- The written form of a destination with its equals sign. -/
def targetChars (dest : Machine.Destination) : List Char :=
  if destinationLetters dest = [] then [] else destinationLetters dest ++ ['=']

theorem isTarget_targetChars (dest : Machine.Destination) : IsTarget dest (targetChars dest) := by
  unfold targetChars
  split
  · rename_i unstored
    exact destinationLetters_eq_nil unstored ▸ .absent
  · exact ofLetters_eq_ok (ofLetters_destinationLetters dest)

theorem toList_text_address (symbol : String) :
    (Instruction.address symbol).text.toList = '@' :: symbol.toList := by
  simp [Instruction.text, Instruction.pieces]

theorem toList_text_label (symbol : String) :
    (Instruction.label symbol).text.toList = '(' :: (symbol.toList ++ [')']) := by
  simp [Instruction.text, Instruction.pieces]

theorem toList_text_compute (dest : Machine.Destination) (comp : Comp) (jump : Option Jump) :
    (Instruction.compute dest comp jump).text.toList =
      targetChars dest ++ (comp.chars ++ branchChars jump) := by
  have singles (chars : List Char) :
      (chars.map String.singleton).flatMap String.toList = chars := by
    induction chars with
    | nil => rfl
    | cons c rest ih => simp [ih]
  simp only [Instruction.text, String.toList_join, Instruction.pieces, List.flatMap_append, singles,
    targetChars, List.append_assoc]
  cases jump <;> simp [branchChars]

/-- The written form is the spelling with each letter of the destination once. -/
theorem spelled_text {i : Instruction} (writable : i.Writable) : i.Spelled i.text.toList := by
  cases i with
  | address symbol => exact toList_text_address symbol ▸ .address writable
  | label symbol => exact toList_text_label symbol ▸ .label writable
  | compute dest comp jump =>
    exact toList_text_compute dest comp jump ▸ .compute (isTarget_targetChars dest) writable jump

/-- Every instruction that can be written is read back from its written form. -/
theorem ofWord_text {i : Instruction} (writable : i.Writable) :
    Instruction.ofWord i.text.toList = .ok i :=
  (spelled_text writable).ofWord

theorem isWordChar_text {i : Instruction} (writable : i.Writable) :
    ∀ c ∈ i.text.toList, isWordChar c :=
  (spelled_text writable).isWordChar

theorem text_ne_nil (i : Instruction) : i.text.toList ≠ [] := by
  cases i with
  | address symbol => simp [toList_text_address]
  | label symbol => simp [toList_text_label]
  | compute dest comp jump => simp [toList_text_compute, chars_ne_nil]

/-- A written instruction is a line of its own. -/
theorem lineWords_text {i : Instruction} (writable : i.Writable) :
    lineWords i.text.toList = [i.text.toList] := by
  have alone : lineWords (i.text.toList ++ []) = i.text.toList :: lineWords [] :=
    lineWords_word (text_ne_nil i) (isWordChar_text writable) (by simp)
  rwa [List.append_nil] at alone

/-- Characters that take one byte. -/
theorem toNat_lt_of_isSymbolChar {c : Char} (symbol : isSymbolChar c) : c.toNat < 128 := by
  simp only [isSymbolChar, Char.isAlphanum, Char.isAlpha, Char.isUpper, Char.isLower,
    Char.isDigit, Bool.or_eq_true, Bool.and_eq_true, decide_eq_true_eq, UInt32.le_iff_toNat_le,
    ge_iff_le] at symbol
  rcases symbol with ((((((⟨_, last⟩ | ⟨_, last⟩) | ⟨_, last⟩) | rfl) | rfl) | rfl) | rfl)
  · exact Nat.lt_of_le_of_lt last (by decide)
  · exact Nat.lt_of_le_of_lt last (by decide)
  · exact Nat.lt_of_le_of_lt last (by decide)
  all_goals decide

theorem toNat_lt_of_isCompChar {c : Char} (comp : isCompChar c) : c.toNat < 128 := by
  simp only [isCompChar, Operand.ofChar?, Operator.ofChar?, Bool.or_eq_true, List.find?_isSome,
    decide_eq_true_eq] at comp
  rcases comp with ⟨x, _, rfl⟩ | ⟨op, _, rfl⟩
  · cases x <;> decide
  · cases op <;> decide

/-- Instructions are spelled in ASCII. -/
theorem Instruction.Spelled.ascii {i : Instruction} {word : List Char} (spelled : i.Spelled word) :
    ∀ c ∈ word, c.toNat < 128 := by
  cases spelled with
  | address legal =>
    rw [List.forall_mem_cons]
    exact ⟨by decide, fun c member => toNat_lt_of_isSymbolChar (legal.2 c member)⟩
  | label legal =>
    rw [List.forall_mem_cons, List.forall_mem_append, List.forall_mem_singleton]
    exact ⟨by decide, fun c member => toNat_lt_of_isSymbolChar (legal.2 c member), by decide⟩
  | @compute dest target comp names writable jump =>
    have branch : ∀ c ∈ branchChars jump, c.toNat < 128 := by
      cases jump with
      | none => simp [branchChars]
      | some jump => cases jump <;> simp [branchChars, Jump.name]
    rw [List.forall_mem_append, List.forall_mem_append]
    refine ⟨?_, fun c member => toNat_lt_of_isCompChar (isCompChar_chars comp c member), branch⟩
    intro c member
    rcases names.mem member with letter | rfl
    · exact toNat_lt_of_isCompChar letter
    · decide

theorem ascii_text {i : Instruction} (writable : i.Writable) :
    ∀ c ∈ i.text.toList, c.toNat < 128 :=
  (spelled_text writable).ascii

end HackToolchain.Assembly
