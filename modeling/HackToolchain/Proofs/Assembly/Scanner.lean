import HackToolchain.Proofs.Assembly.Boundaries

/-! Reading by position. A scanner passes over a text with nothing but its position and the number
of its line. Whatever such a scanner takes for granted is checked here on its way: that it looks at
a character of the text, that it moves on inside the text, and that its lines are no more than the
text can have. No check ever fails, and the scanner reads what the words of the text say. -/
namespace HackToolchain.Assembly

/-- Why a checked run ends early: a check has failed, or the text is at fault. -/
inductive Stop where
  | bounds
  | error (e : Error)
  deriving DecidableEq

def require (condition : Prop) [Decidable condition] : Except Stop Unit :=
  if condition then .ok () else .error .bounds

theorem require_ok {condition : Prop} [Decidable condition] (holds : condition) :
    require condition = .ok () :=
  if_pos holds

def charAt (text : List Char) (index : Nat) : Except Stop Char :=
  match text[index]? with
  | some c => .ok c
  | none => .error .bounds

/-- The characters from one position to another. -/
def slice (text : List Char) (start stop : Nat) : Except Stop (List Char) := do
  require (start ≤ stop ∧ stop ≤ text.length)
  return (text.drop start).take (stop - start)

/-- How many characters have been passed, and the number of the line. -/
structure Cursor where
  position : Nat
  line : Nat

namespace Cursor

/-- A fault is one of the line that the cursor is on. -/
def judge (c : Cursor) (answer : Except Fault α) : Except Stop α :=
  answer.mapError fun fault => .error (.syntactic c.line fault)

variable (source : List Char)

def peek (c : Cursor) : Option Char :=
  source[c.position]?

def advance (c : Cursor) : Except Stop Cursor := do
  require (c.position + 1 ≤ source.length)
  return { c with position := c.position + 1 }

/-- A text has at most one line more than it has characters. -/
def nextLine (c : Cursor) : Except Stop Cursor := do
  require (c.line + 1 ≤ source.length + 1)
  return { c with line := c.line + 1 }

def skipBlanks (c : Cursor) : Except Stop Cursor :=
  match _found : c.peek source with
  | none => .ok c
  | some char =>
    if Text.isBlank char then do
      let counted ← if char = '\n' then c.nextLine source else pure c
      require (c.position + 1 ≤ source.length)
      skipBlanks { counted with position := c.position + 1 }
    else .ok c
termination_by source.length - c.position
decreasing_by
  have inside := (List.getElem?_eq_some_iff.mp _found).1
  omega

/-- The first position from `index` on where the text ends or has another character. -/
def scanEnd (accept : Char → Bool) (index : Nat) : Except Stop Nat :=
  if index < source.length then do
    let char ← charAt source index
    if accept char then scanEnd accept (index + 1) else return index
  else return index
termination_by source.length - index

def scan (accept : Char → Bool) (c : Cursor) : Except Stop (List Char × Cursor) := do
  let stop ← scanEnd source accept c.position
  let text ← slice source c.position stop
  return (text, { c with position := stop })

def readSymbol (c : Cursor) : Except Stop (String × Cursor) := do
  let (text, c) ← c.scan source isSymbolChar
  if text = [] then c.judge (.error .missingSymbol) else return (String.ofList text, c)

def readAddress (c : Cursor) : Except Stop (Instruction × Cursor) := do
  let c ← c.advance source
  let (symbol, c) ← c.readSymbol source
  return (.address symbol, c)

def readLabel (c : Cursor) : Except Stop (Instruction × Cursor) := do
  let c ← c.advance source
  let (symbol, c) ← c.readSymbol source
  if c.peek source = some ')' then
    let c ← c.advance source
    return (.label symbol, c)
  else c.judge (.error (.unclosedLabel symbol))

def between? : Char → Option Operator
  | '+' => some .plus
  | '-' => some .minus
  | '&' => some .and
  | '|' => some .or
  | _ => none

/-- A sign is looked at twice: to see that it is one, and to tell which. -/
def readComp (c : Cursor) (text : List Char) : Except Stop Comp :=
  let illegal : Fault := .illegalComp (String.ofList text)
  let operand (index : Nat) : Except Stop Operand :=
    match text[index]?.bind Operand.ofChar? with
    | some x => return x
    | none => c.judge (.error illegal)
  match text with
  | [sign, _] =>
    if sign = '!' ∨ sign = '-' then do
      let first ← charAt text 0
      let x ← operand 1
      return .unary (some (if first = '!' then .not else .minus)) x
    else c.judge (.error illegal)
  | [_] => do
    let x ← operand 0
    return .unary none x
  | [_, sign, _] =>
    match between? sign with
    | some op => do
      let left ← operand 0
      let right ← operand 2
      return .binary left op right
    | none => c.judge (.error illegal)
  | _ => c.judge (.error illegal)

def readJump (c : Cursor) : Except Stop (Option Jump × Cursor) := do
  if c.peek source = some ';' then
    let c ← c.advance source
    let (name, c) ← c.scan source Char.isUpper
    match Jump.ofName? (String.ofList name) with
    | some jump => return (some jump, c)
    | none => c.judge (.error (.illegalJump (String.ofList name)))
  else return (none, c)

def readCompute (c : Cursor) : Except Stop (Instruction × Cursor) := do
  let (first, c) ← c.scan source isCompChar
  let (dest, expression, c) ←
    if c.peek source = some '=' then do
      let dest ← c.judge (Destination.ofLetters first)
      let c ← c.advance source
      let (expression, c) ← c.scan source isCompChar
      pure (dest, expression, c)
    else pure (⟨false, false, false⟩, first, c)
  let comp ← c.readComp expression
  let (jump, c) ← c.readJump source
  return (.compute dest comp jump, c)

def readInstruction (first : Char) (c : Cursor) : Except Stop (Instruction × Cursor) :=
  match first with
  | '@' => c.readAddress source
  | '(' => c.readLabel source
  | _ => c.readCompute source

/-- Behind an instruction comes a blank, a comment or the end. -/
def expectEnd (c : Cursor) : Except Stop Unit :=
  match c.peek source with
  | none => .ok ()
  | some char =>
    if char = '/' ∨ Text.isBlank char then .ok () else c.judge (.error (.unexpectedChar char))

/-- Reads on to the end of the text, with one comment or instruction in each round. It is also
checked that there are rounds enough. -/
def readFrom : Nat → Cursor → Except Stop (List Instruction)
  | 0, _ => .error .bounds
  | rounds + 1, c => do
    let c ← c.skipBlanks source
    if source.length ≤ c.position then
      return []
    let first ← charAt source c.position
    if first = '/' then
      let (_, c) ← c.scan source (· ≠ '\n')
      readFrom rounds c
    else
      let (i, c) ← c.readInstruction source first
      c.expectEnd source
      let later ← readFrom rounds c
      return i :: later

end Cursor

def scanText (source : List Char) : Except Stop (List Instruction) :=
  Cursor.readFrom source (source.length + 1) ⟨0, 1⟩

namespace Cursor

section Position

variable (source : List Char)

/-- The cursor before a rest of the text. -/
def before (rest : List Char) (line : Nat) : Cursor :=
  ⟨source.length - rest.length, line⟩

/-- An answer about a rest of the text, seen from the cursor before it. -/
def located (line : Nat) (answer : Except Fault (α × List Char)) : Except Stop (α × Cursor) :=
  (answer.map (Prod.map id (before source · line))).mapError fun fault =>
    .error (.syntactic line fault)

end Position

variable {source rest : List Char}

theorem peek_before (inside : rest <:+ source) (line : Nat) :
    (before source rest line).peek source = rest.head? := by
  obtain ⟨passed, rfl⟩ := inside
  have start : (passed ++ rest).length - rest.length = passed.length := by simp
  rw [peek, before, start, List.getElem?_append_right (Nat.le_refl _), Nat.sub_self,
    List.head?_eq_getElem?]

section Next

variable {c : Char} (inside : c :: rest <:+ source)

include inside

theorem position_lt : source.length - (c :: rest).length < source.length :=
  Nat.sub_lt (Nat.lt_of_lt_of_le (Nat.succ_pos _) inside.length_le) (Nat.succ_pos _)

theorem position_next : source.length - (c :: rest).length + 1 = source.length - rest.length := by
  have room := inside.length_le
  rw [List.length_cons] at room ⊢
  omega

theorem charAt_before : charAt source (source.length - (c :: rest).length) = .ok c := by
  have found : source[source.length - (c :: rest).length]? = some c := peek_before inside 0
  rw [charAt, found]

theorem advance_before (line : Nat) :
    (before source (c :: rest) line).advance source = .ok (before source rest line) := by
  rw [advance, before, position_next inside, require_ok (Nat.sub_le _ _)]
  rfl

end Next

theorem scanEnd_before (inside : rest <:+ source) (accept : Char → Bool) :
    scanEnd source accept (source.length - rest.length) =
      .ok (source.length - (rest.dropWhile accept).length) := by
  induction rest with
  | nil =>
    rw [scanEnd, if_neg (by simp)]
    rfl
  | cons c rest ih =>
    have later := (List.suffix_cons c rest).trans inside
    rw [scanEnd, if_pos (position_lt inside), charAt_before inside]
    cases accepted : accept c with
    | true =>
      rw [List.dropWhile_cons_of_pos accepted, ← ih later, ← position_next inside]
      exact if_pos accepted
    | false =>
      rw [List.dropWhile_cons_of_neg (by simp [accepted])]
      exact if_neg (by simp [accepted])

theorem slice_before {text : List Char} (inside : text ++ rest <:+ source) :
    slice source (source.length - (text ++ rest).length) (source.length - rest.length) =
      .ok text := by
  obtain ⟨passed, rfl⟩ := inside
  have start : (passed ++ (text ++ rest)).length - (text ++ rest).length = passed.length := by simp
  have stop : (passed ++ (text ++ rest)).length - rest.length = passed.length + text.length := by
    simp only [List.length_append]
    omega
  have between : ((passed ++ (text ++ rest)).drop passed.length).take
      (passed.length + text.length - passed.length) = text := by simp
  rw [start, stop, slice, require_ok (by simp), ok_bind, between]
  rfl

theorem scan_before (inside : rest <:+ source) (accept : Char → Bool) (line : Nat) :
    (before source rest line).scan source accept =
      .ok (rest.takeWhile accept, before source (rest.dropWhile accept) line) := by
  have text : slice source (source.length - rest.length)
      (source.length - (rest.dropWhile accept).length) = .ok (rest.takeWhile accept) := by
    have split := List.takeWhile_append_dropWhile (p := accept) (l := rest)
    have whole : rest.takeWhile accept ++ rest.dropWhile accept <:+ source := split.symm ▸ inside
    have cut := slice_before whole
    rwa [split] at cut
  rw [scan, before, scanEnd_before inside, ok_bind, text]
  rfl

/-- Reading on after an answer. -/
theorem located_bind {line : Nat} {answer : Except Fault (α × List Char)}
    {next : α × List Char → Except Fault (β × List Char)}
    {step : α × Cursor → Except Stop (β × Cursor)}
    (follows : ∀ a rest, answer = .ok (a, rest) →
      step (a, before source rest line) = located source line (next (a, rest))) :
    (located source line answer >>= step) = located source line (answer >>= next) := by
  cases result : answer with
  | error fault => rfl
  | ok taken => exact follows taken.1 taken.2 result

theorem readSymbol_before (inside : rest <:+ source) (line : Nat) :
    (before source rest line).readSymbol source = located source line (takeSymbol rest) := by
  rw [readSymbol, scan_before inside, ok_bind, takeSymbol]
  simp only
  split <;> rfl

theorem takeSymbol_suffix {word rest : List Char} {symbol : String}
    (taken : takeSymbol word = .ok (symbol, rest)) : rest <:+ word :=
  ⟨_, (takeSymbol_eq_ok taken).1.symm⟩

theorem readAddress_before (inside : '@' :: rest <:+ source) (line : Nat) :
    (before source ('@' :: rest) line).readAddress source =
      located source line (takeAddress rest) := by
  have later := (List.suffix_cons _ rest).trans inside
  rw [readAddress, advance_before inside, ok_bind, readSymbol_before later, takeAddress]
  exact located_bind fun _ _ _ => rfl

theorem readLabel_before (inside : '(' :: rest <:+ source) (line : Nat) :
    (before source ('(' :: rest) line).readLabel source =
      located source line (takeLabel rest) := by
  have later := (List.suffix_cons _ rest).trans inside
  rw [readLabel, advance_before inside, ok_bind, readSymbol_before later]
  cases taken : takeSymbol rest with
  | error fault =>
    rw [takeLabel, taken]
    rfl
  | ok answer =>
    obtain ⟨symbol, left⟩ := answer
    have inside := (takeSymbol_suffix taken).trans later
    have here : located source line (.ok (symbol, left)) =
        .ok (symbol, before source left line) := rfl
    rw [here, ok_bind]
    by_cases sign : left.head? = some ')'
    · obtain ⟨left, rfl⟩ := List.head?_eq_some_iff.mp sign
      rw [takeLabel_closed taken]
      simp only [peek_before inside, advance_before inside]
      rfl
    · rw [takeLabel_unclosed taken sign]
      simp only [peek_before inside, if_neg sign]
      rfl

theorem readJump_before (inside : rest <:+ source) (line : Nat) :
    (before source rest line).readJump source = located source line (takeJump rest) := by
  rw [readJump, peek_before inside]
  by_cases sign : rest.head? = some ';'
  · obtain ⟨rest, rfl⟩ := List.head?_eq_some_iff.mp sign
    have later := (List.suffix_cons _ rest).trans inside
    rw [if_pos sign, advance_before inside, ok_bind, scan_before later, ok_bind, takeJump]
    simp only
    cases Jump.ofName? (String.ofList (rest.takeWhile Char.isUpper)) <;> rfl
  · rw [if_neg sign, takeJump_plain sign]
    rfl

/-- A sign other than that of negation stands between two operands. -/
theorem between?_eq (sign : Char) :
    between? sign = (Operator.ofChar? sign).filter (· ≠ .not) := by
  unfold between?
  split
  iterate 4 rfl
  cases found : Operator.ofChar? sign with
  | none => rfl
  | some op =>
    obtain rfl := sign_of_ofChar? found
    cases op <;> first | rfl | contradiction

/-- Looking at an expression sign by sign finds what looking at it once does. -/
theorem readComp_eq (c : Cursor) (text : List Char) :
    c.readComp text = c.judge (Comp.ofChars text) := by
  match text with
  | [] | _ :: _ :: _ :: _ :: _ => rfl
  | [x] =>
    rw [readComp, Comp.ofChars, Comp.ofChars?]
    cases found : Operand.ofChar? x <;> simp [found] <;> rfl
  | [sign, x] =>
    rw [readComp, Comp.ofChars, Comp.ofChars?]
    by_cases unary : sign = '!' ∨ sign = '-'
    · rw [if_pos unary]
      cases found : Operand.ofChar? x <;> rcases unary with rfl | rfl <;> simp [found] <;> rfl
    · rw [if_neg unary]
      cases first : Operator.ofChar? sign with
      | none => rfl
      | some op =>
        obtain rfl := sign_of_ofChar? first
        cases op <;> first | (cases Operand.ofChar? x <;> rfl) | exact absurd (by decide) unary
  | [x, sign, y] =>
    rw [readComp, between?_eq, Comp.ofChars, Comp.ofChars?]
    cases Operator.ofChar? sign with
    | none => cases Operand.ofChar? x <;> rfl
    | some op =>
      cases left : Operand.ofChar? x <;> cases right : Operand.ofChar? y <;> cases op <;>
        simp [left, right] <;> rfl

/-- The part of a computing instruction behind its destination. -/
theorem readComputing_before (dest : Machine.Destination) (inside : rest <:+ source) (line : Nat) :
    (do
      let c := before source (rest.dropWhile isCompChar) line
      let comp ← c.readComp (rest.takeWhile isCompChar)
      let (jump, c) ← c.readJump source
      return (Instruction.compute dest comp jump, c)) =
      located source line (takeComputing dest rest) := by
  have later := (List.dropWhile_suffix isCompChar).trans inside
  simp only [readComp_eq, readJump_before later, takeComputing]
  cases Comp.ofChars (rest.takeWhile isCompChar) with
  | error fault => rfl
  | ok comp => exact located_bind fun _ _ _ => rfl

theorem readCompute_before (inside : rest <:+ source) (line : Nat) :
    (before source rest line).readCompute source = located source line (takeCompute rest) := by
  have later := (List.dropWhile_suffix isCompChar).trans inside
  rw [readCompute, scan_before inside, ok_bind]
  simp only [peek_before later]
  by_cases sign : (rest.dropWhile isCompChar).head? = some '='
  · obtain ⟨expression, equals⟩ := List.head?_eq_some_iff.mp sign
    rw [if_pos sign, takeCompute_equals equals]
    cases Destination.ofLetters (rest.takeWhile isCompChar) with
    | error fault => rfl
    | ok dest =>
      rw [equals] at later
      have behind := (List.suffix_cons _ expression).trans later
      simp only [judge, Except.mapError, ok_bind, equals, advance_before later,
        scan_before behind]
      exact readComputing_before dest behind line
  · rw [if_neg sign, takeCompute_plain sign]
    exact readComputing_before _ inside line

theorem readInstruction_before {c : Char} (inside : c :: rest <:+ source) (line : Nat) :
    (before source (c :: rest) line).readInstruction source c =
      located source line (takeInstruction (c :: rest)) := by
  by_cases address : c = '@'
  · subst address
    exact readAddress_before inside line
  by_cases label : c = '('
  · subst label
    exact readLabel_before inside line
  rw [takeInstruction_plain address label, ← readCompute_before inside line]
  simp [readInstruction]

theorem expectEnd_before (inside : rest <:+ source) (line : Nat)
    (stop : ∀ c ∈ rest.head?, isWordChar c = false) :
    (before source rest line).expectEnd source = .ok () := by
  rw [expectEnd, peek_before inside]
  cases first : rest.head? with
  | none => rfl
  | some c =>
    have other := stop c first
    simp only [isWordChar, Bool.and_eq_false_iff, Bool.not_eq_false', decide_eq_false_iff_not,
      not_not] at other
    exact if_pos other.symm

theorem expectEnd_before_word {c : Char} (inside : c :: rest <:+ source) (line : Nat)
    (plain : isWordChar c) : (before source (c :: rest) line).expectEnd source =
      .error (.error (.syntactic line (.unexpectedChar c))) := by
  simp only [isWordChar, Bool.and_eq_true, Bool.not_eq_true', decide_eq_true_eq] at plain
  rw [expectEnd, peek_before inside]
  exact if_neg (by simp [plain.1, plain.2])

theorem skipBlanks_stop (inside : rest <:+ source) (line : Nat)
    (stop : ∀ c ∈ rest.head?, Text.isBlank c = false) :
    (before source rest line).skipBlanks source = .ok (before source rest line) := by
  rw [skipBlanks]
  split
  · rfl
  · rename_i char found
    have other := stop char ((peek_before inside line).symm.trans found)
    exact if_neg (by simp [other])

theorem skipBlanks_cons {c : Char} (inside : c :: rest <:+ source) {line : Nat}
    (blank : Text.isBlank c) (room : line + 1 ≤ source.length + 1) :
    (before source (c :: rest) line).skipBlanks source =
      (before source rest (if c = '\n' then line + 1 else line)).skipBlanks source := by
  have here := peek_before inside line
  rw [skipBlanks]
  split
  · rename_i missing
    cases here.symm.trans missing
  · rename_i char found
    obtain rfl : c = char := Option.some.inj (here.symm.trans found)
    simp only [before, position_next inside, require_ok (Nat.sub_le source.length rest.length),
      ok_bind]
    rw [if_pos blank, nextLine, require_ok room]
    split <;> rfl

theorem readFrom_congr {first second : Cursor}
    (same : first.skipBlanks source = second.skipBlanks source) (rounds : Nat) :
    readFrom source rounds first = readFrom source rounds second := by
  cases rounds with
  | zero => rfl
  | succ rounds => rw [readFrom, readFrom, same]

theorem readFrom_nil (rounds line : Nat) :
    readFrom source (rounds + 1) (before source [] line) = .ok [] := by
  have finished : source.length ≤ source.length - ([] : List Char).length := Nat.le_refl _
  rw [readFrom, skipBlanks_stop List.nil_suffix line (by simp), ok_bind, before, if_pos finished]
  rfl

section Round

variable {c : Char} (inside : c :: rest <:+ source) (line rounds : Nat)

include inside

theorem readFrom_cons (plain : Text.isBlank c = false) :
    readFrom source (rounds + 1) (before source (c :: rest) line) =
      if c = '/' then readFrom source rounds (before source ((c :: rest).dropWhile (· ≠ '\n')) line)
      else do
        let (i, c) ← located source line (takeInstruction (c :: rest))
        c.expectEnd source
        let later ← readFrom source rounds c
        return i :: later := by
  have stop : ∀ d ∈ (c :: rest).head?, Text.isBlank d = false := by
    rintro d ⟨⟩
    exact plain
  rw [readFrom, skipBlanks_stop inside line stop, ok_bind, before,
    if_neg (Nat.not_le_of_lt (position_lt inside)), charAt_before inside, ok_bind, ← before,
    scan_before inside, ok_bind, readInstruction_before inside]

theorem readFrom_comment (slash : c = '/') :
    readFrom source (rounds + 1) (before source (c :: rest) line) =
      readFrom source rounds (before source (rest.dropWhile (· ≠ '\n')) line) := by
  subst slash
  rw [readFrom_cons inside line rounds rfl, if_pos rfl, List.dropWhile_cons_of_pos rfl]

theorem readFrom_word (plain : isWordChar c) :
    readFrom source (rounds + 1) (before source (c :: rest) line) = do
      let (i, c) ← located source line (takeInstruction (c :: rest))
      c.expectEnd source
      let later ← readFrom source rounds c
      return i :: later := by
  simp only [isWordChar, Bool.and_eq_true, Bool.not_eq_true', decide_eq_true_eq] at plain
  rw [readFrom_cons inside line rounds plain.1, if_neg plain.2]

end Round

/-- The scanner before a rest of the text reads the words of the rest, if it has rounds for all of
them and the lines so far leave numbers for those to come. -/
theorem readFrom_before (inside : rest <:+ source) {line rounds : Nat}
    (enough : rest.length < rounds) (lines : line + rest.length ≤ source.length + 1) :
    readFrom source rounds (before source rest line) =
      ((numberedWords line rest).mapM readWord).mapError .error := by
  induction rest using text_induction generalizing line rounds with
  | nil =>
    obtain ⟨rounds, rfl⟩ := Nat.exists_eq_add_of_lt enough
    exact readFrom_nil _ line
  | blank c rest blank ih =>
    have later := (List.suffix_cons c rest).trans inside
    rw [List.length_cons] at enough lines
    rw [readFrom_congr (skipBlanks_cons inside blank (by omega))]
    by_cases feed : c = '\n'
    · rw [if_pos feed, feed, numberedWords_feed]
      exact ih later (by omega) (by omega)
    · rw [if_neg feed, numberedWords_blank blank feed]
      exact ih later (by omega) (by omega)
  | comment text ih =>
    have shorter : text.dropWhile (· ≠ '\n') <:+ text := List.dropWhile_suffix _
    have length := shorter.length_le
    rw [List.length_cons] at enough lines
    obtain ⟨rounds, rfl⟩ := Nat.exists_eq_add_of_lt enough
    rw [readFrom_comment inside line _ rfl, numberedWords_comment]
    exact ih ((shorter.trans (List.suffix_cons _ _)).trans inside) (by omega) (by omega)
  | word word rest some plain stop ih =>
    have later := (List.suffix_append word rest).trans inside
    obtain ⟨c, word, rfl⟩ := List.exists_cons_of_ne_nil some
    have first := plain c List.mem_cons_self
    rw [List.length_append, List.length_cons] at enough lines
    obtain ⟨rounds, rfl⟩ := Nat.exists_eq_add_of_lt enough
    rw [numberedWords_word some plain stop, List.mapM_cons, readWord, Instruction.ofWord]
    rw [List.cons_append] at inside ⊢
    rw [readFrom_word inside line _ first, ← List.cons_append, takeInstruction_word stop some]
    cases taken : takeInstruction (c :: word) with
    | error fault => rfl
    | ok answer =>
      obtain ⟨i, left⟩ := answer
      cases left with
      | nil =>
        have ends := expectEnd_before later line stop
        have continues : readFrom source (word.length + 1 + rest.length + rounds)
            (before source rest line) = _ := ih later (by omega) (by omega)
        simp only [Except.map, Prod.map, id, List.nil_append, located, Except.mapError, ok_bind,
          ends, continues]
        cases List.mapM readWord (numberedWords line rest) <;> rfl
      | cons d left =>
        obtain ⟨used, split, _⟩ := takeInstruction_eq_ok taken
        have follows : d :: (left ++ rest) <:+ source := by
          refine List.IsSuffix.trans ⟨used, ?_⟩ inside
          rw [← List.cons_append, ← List.append_assoc, ← split, List.cons_append]
        have unexpected := expectEnd_before_word follows line (plain d (split ▸ by simp))
        simp only [Except.map, Prod.map, id, List.cons_append, located, Except.mapError, ok_bind,
          unexpected]
        rfl

end Cursor

/-- The scanner never leaves the text, and reads what the words of the text say. -/
theorem scanText_eq (source : List Char) : scanText source = (parse source).mapError .error := by
  have start : (⟨0, 1⟩ : Cursor) = .before source source 1 := by
    rw [Cursor.before, Nat.sub_self]
  have lines : 1 + source.length ≤ source.length + 1 := (Nat.add_comm _ _).le
  rw [scanText, start, Cursor.readFrom_before List.suffix_rfl (Nat.lt_succ_self _) lines, parse_eq]

end HackToolchain.Assembly
