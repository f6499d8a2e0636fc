import HackToolchain.Proofs.Vm.Grammar

/-! Tokens read off the front of a text. Cutting a text into lines, the lines into stretches and these
into tokens comes to the same as going from character to character: blanks and comments are passed
over, a token takes all it can, and the first character that starts none of them is an error. -/
namespace HackToolchain.Vm

open Assembly (isWordChar takeWhile_all dropWhile_all)

/-- Tokens and those behind them, or the first error. -/
def joined (first later : Except LexError (List Token)) : Except LexError (List Token) := do
  return (← first) ++ (← later)

@[simp] theorem joined_nil (later : Except LexError (List Token)) : joined (.ok []) later = later := by
  cases later <;> rfl

@[simp] theorem nil_joined (first : Except LexError (List Token)) : joined first (.ok []) = first := by
  cases first with
  | error e => rfl
  | ok tokens => exact congrArg Except.ok (List.append_nil tokens)

theorem joined_assoc (first second third : Except LexError (List Token)) :
    joined (joined first second) third = joined first (joined second third) := by
  cases first with
  | error e => rfl
  | ok before =>
    cases second with
    | error e => rfl
    | ok between =>
      cases third with
      | error e => rfl
      | ok behind => exact congrArg Except.ok (List.append_assoc before between behind)

theorem joined_eq_ok {first tokens : List Token} {later : Except LexError (List Token)} :
    joined (.ok first) later = .ok tokens ↔ ∃ rest, later = .ok rest ∧ first ++ rest = tokens := by
  cases later with
  | error e => simp [joined, bind, Except.bind]
  | ok rest => simp [joined, bind, Except.bind, pure, Except.pure]

/-- The tokens of all items, in their order. -/
def readAll (read : α → Except LexError (List Token)) (items : List α) :
    Except LexError (List Token) :=
  (items.mapM read).map List.flatten

@[simp] theorem readAll_nil (read : α → Except LexError (List Token)) : readAll read [] = .ok [] :=
  rfl

theorem readAll_cons (read : α → Except LexError (List Token)) (item : α) (rest : List α) :
    readAll read (item :: rest) = joined (read item) (readAll read rest) := by
  rw [readAll, readAll, List.mapM_cons]
  cases read item with
  | error e => rfl
  | ok tokens => cases rest.mapM read <;> rfl

theorem readAll_append (read : α → Except LexError (List Token)) (first second : List α) :
    readAll read (first ++ second) = joined (readAll read first) (readAll read second) := by
  induction first with
  | nil => exact (joined_nil _).symm
  | cons item rest ih => rw [List.cons_append, readAll_cons, readAll_cons, ih, joined_assoc]

/-- A character that can start an identifier, and any that can follow. -/
def IsIdentifier (text : List Char) : Prop :=
  ∃ first rest, text = first :: rest ∧ isIdentifierStart first ∧ ∀ c ∈ rest, isIdentifierRest c

theorem isIdentifier_of_isSymbol {name : String} (symbol : isSymbol name) :
    IsIdentifier name.toList := by
  unfold isSymbol at symbol
  split at symbol
  · contradiction
  · rename_i first rest text
    simp only [Bool.and_eq_true, List.all_eq_true] at symbol
    exact ⟨first, rest, text, symbol.1, fun c member => (symbol.2 c member).1⟩

theorem IsIdentifier.all {text : List Char} (identifier : IsIdentifier text) :
    ∀ c ∈ text, isIdentifierRest c := by
  obtain ⟨first, rest, rfl, start, others⟩ := identifier
  have firstRest : isIdentifierRest first := by simp [isIdentifierRest, start]
  exact List.forall_mem_cons.mpr ⟨firstRest, others⟩

theorem IsIdentifier.ne_nil {text : List Char} (identifier : IsIdentifier text) : text ≠ [] := by
  obtain ⟨first, rest, rfl, _⟩ := identifier
  exact List.cons_ne_nil first rest

theorem takeWhile_stop {p : Char → Bool} {text : List Char} (stop : ∀ c ∈ text.head?, p c = false) :
    text.takeWhile p = [] := by
  cases text with
  | nil => rfl
  | cons c rest => simp [stop c rfl]

theorem dropWhile_stop {p : Char → Bool} {text : List Char} (stop : ∀ c ∈ text.head?, p c = false) :
    text.dropWhile p = text := by
  cases text with
  | nil => rfl
  | cons c rest => simp [stop c rfl]

section Stretches

variable {n : Nat} {c : Char} {rest : List Char}

theorem wordTokens_nil (n : Nat) : wordTokens n [] = .ok [] :=
  rfl

theorem wordTokens_stray (undigit : c.isDigit = false) (unstarted : isIdentifierStart c = false) :
    wordTokens n (c :: rest) = .error ⟨n, c⟩ := by
  simp [wordTokens, takeIdentifier, undigit, unstarted]

theorem wordTokens_number {digits : List Char} (some : digits ≠ [])
    (every : ∀ c ∈ digits, c.isDigit) (stop : ∀ c ∈ rest.head?, c.isDigit = false) :
    wordTokens n (digits ++ rest) =
      joined (.ok [⟨.number, String.ofList digits, n⟩]) (wordTokens n rest) := by
  simp only [wordTokens, takeWhile_all every stop, dropWhile_all every stop, takeWhile_stop stop,
    dropWhile_stop stop]
  split
  · rfl
  · simp only [List.filterMap_cons, if_neg some, if_true]
    rfl

theorem wordTokens_identifier {name : List Char} (identifier : IsIdentifier name)
    (stop : ∀ c ∈ rest.head?, isIdentifierRest c = false) :
    wordTokens n (name ++ rest) =
      joined (.ok [⟨.identifier, String.ofList name, n⟩]) (wordTokens n rest) := by
  have every := identifier.all
  obtain ⟨first, others, rfl, start, _⟩ := identifier
  have undigit : ∀ c ∈ (first :: others ++ rest).head?, c.isDigit = false := by
    rintro c ⟨⟩
    exact isDigit_of_isIdentifierStart start
  have taken : takeIdentifier (first :: others ++ rest) = (first :: others, rest) := by
    rw [List.cons_append, takeIdentifier, if_pos start, ← List.cons_append,
      takeWhile_all every stop, dropWhile_all every stop]
  rw [wordTokens]
  simp only [takeWhile_stop undigit, dropWhile_stop undigit, taken]
  cases rest with
  | nil => rfl
  | cons c rest =>
    have other := stop c rfl
    simp only [isIdentifierRest, Bool.or_eq_false_iff] at other
    rw [wordTokens_stray other.1.2 other.1.1]
    rfl

end Stretches

theorem beforeComment_cons (c : Char) (rest : List Char) :
    beforeComment (c :: rest) =
      if c = '/' ∧ rest.head? = some '/' then [] else c :: beforeComment rest := by
  let step := fun c (next : Option Char × List Char) =>
    (some c, if c = '/' ∧ next.1 = some '/' then [] else c :: next.2)
  have head : (rest.foldr step (none, [])).1 = rest.head? := by cases rest <;> rfl
  rw [← head]
  rfl

theorem beforeComment_append {start : List Char} (bare : '/' ∉ start) (rest : List Char) :
    beforeComment (start ++ rest) = start ++ beforeComment rest := by
  induction start with
  | nil => rfl
  | cons c start ih =>
    obtain ⟨other, later⟩ := List.ne_and_not_mem_of_not_mem_cons bare
    rw [List.cons_append, beforeComment_cons, if_neg fun slash => other slash.1.symm, ih later,
      List.cons_append]

theorem beforeComment_of_not_mem {line : List Char} (bare : '/' ∉ line) :
    beforeComment line = line := by
  have whole := beforeComment_append bare []
  rwa [List.append_nil, show beforeComment [] = [] from rfl, List.append_nil] at whole

theorem beforeComment_starts (line : List Char) : beforeComment line <+: line := by
  induction line with
  | nil => exact List.prefix_refl _
  | cons c rest ih =>
    rw [beforeComment_cons]
    split
    · exact List.nil_prefix
    · exact (List.prefix_cons_inj c).mpr ih

section Lines

variable {n : Nat} {start rest : List Char} {found : Except LexError (List Token)}

/-- The tokens of a text without comments and line feeds. -/
def stretchTokens (n : Nat) (text : List Char) : Except LexError (List Token) :=
  readAll (wordTokens n) (Text.words text)

theorem stretchTokens_split (n : Nat) (text : List Char) :
    stretchTokens n text = joined (wordTokens n (text.takeWhile (!Text.isBlank ·)))
      (stretchTokens n (text.dropWhile (!Text.isBlank ·))) := by
  have split := List.takeWhile_append_dropWhile (p := (!Text.isBlank ·)) (l := text)
  by_cases none : text.takeWhile (!Text.isBlank ·) = []
  · rw [none, List.nil_append] at split
    rw [none, split, wordTokens_nil, joined_nil]
  · have unbroken : ∀ c ∈ text.takeWhile (!Text.isBlank ·), Text.isBlank c = false := by
      intro c member
      simpa using List.mem_takeWhile_imp member
    have stop : ∀ c ∈ (text.dropWhile (!Text.isBlank ·)).head?, Text.isBlank c := by
      intro c first
      simpa using stop_dropWhile (!Text.isBlank ·) text c first
    have words := Assembly.words_word none unbroken stop
    rw [split] at words
    rw [stretchTokens, words, readAll_cons]
    rfl

/-- What stands in front of a line without a gap is read first. -/
theorem lineTokens_start (unbroken : ∀ c ∈ start, Text.isBlank c = false)
    (kept : beforeComment (start ++ rest) = start ++ beforeComment rest)
    (read : ∀ word, word <+: rest → wordTokens n (start ++ word) = joined found (wordTokens n word)) :
    lineTokens (start ++ rest) n = joined found (lineTokens rest n) := by
  have inside : ∀ c ∈ start, (!Text.isBlank c) = true := by simpa using unbroken
  have word := (List.takeWhile_prefix (!Text.isBlank ·)).trans (beforeComment_starts rest)
  change stretchTokens n (beforeComment (start ++ rest)) =
    joined found (stretchTokens n (beforeComment rest))
  rw [kept, stretchTokens_split, List.takeWhile_append_of_pos inside,
    List.dropWhile_append_of_pos inside, read _ word, joined_assoc, ← stretchTokens_split]

theorem lineTokens_blank {c : Char} (blank : Text.isBlank c) :
    lineTokens (c :: rest) n = lineTokens rest n := by
  have plain : c ≠ '/' := by
    rintro rfl
    exact absurd blank (by decide)
  rw [lineTokens, beforeComment_cons, if_neg fun slash => plain slash.1, Assembly.words_blank blank]
  rfl

theorem lineTokens_comment : lineTokens ('/' :: '/' :: rest) n = .ok [] := by
  rw [lineTokens, beforeComment_cons, if_pos ⟨rfl, rfl⟩]
  rfl

end Lines

section Texts

variable {n : Nat} {start rest : List Char} {found : Except LexError (List Token)}

/-- The tokens of a text whose first line has a number. -/
def textTokens (n : Nat) (text : List Char) : Except LexError (List Token) :=
  readAll (fun line => lineTokens line.1 line.2) ((Text.lines text).zipIdx n)

theorem tokenize_eq (source : String) :
    tokenize source = (textTokens 1 source.toList).map
      fun tokens => ⟨tokens, source.toList.count '\n' + 1⟩ := by
  rw [tokenize, textTokens, readAll]
  simp only [Text.numberedLines, List.length_zipIdx, Text.length_lines]
  cases ((Text.lines source.toList).zipIdx 1).mapM fun line => lineTokens line.1 line.2 <;> rfl

theorem textTokens_line {line : List Char} (whole : '\n' ∉ line) :
    textTokens n line = lineTokens line n := by
  rw [textTokens, Text.lines_of_not_mem whole, List.zipIdx_singleton, readAll_cons, readAll_nil,
    nil_joined]

@[simp] theorem textTokens_nil (n : Nat) : textTokens n [] = .ok [] :=
  textTokens_line List.not_mem_nil

theorem textTokens_joined (first second : List Char) :
    textTokens n (first ++ '\n' :: second) =
      joined (textTokens n first) (textTokens (n + (first.count '\n' + 1)) second) := by
  rw [textTokens, Text.zipIdx_lines_joined, readAll_append]
  rfl

theorem textTokens_feed (rest : List Char) :
    textTokens n ('\n' :: rest) = textTokens (n + 1) rest := by
  have split := textTokens_joined (n := n) [] rest
  rwa [textTokens_nil, joined_nil] at split

theorem not_mem_firstLine (text : List Char) : '\n' ∉ text.takeWhile (· ≠ '\n') := by
  intro feed
  simpa using List.mem_takeWhile_imp feed

theorem feed_of_firstLine (text : List Char) :
    ∀ c ∈ (text.dropWhile (· ≠ '\n')).head?, c = '\n' := by
  intro c first
  simpa using stop_dropWhile (· ≠ '\n') text c first

theorem textTokens_split (n : Nat) (text : List Char) :
    textTokens n text = joined (lineTokens (text.takeWhile (· ≠ '\n')) n)
      (textTokens n (text.dropWhile (· ≠ '\n'))) := by
  have whole := not_mem_firstLine text
  have split := List.takeWhile_append_dropWhile (p := (· ≠ '\n')) (l := text)
  rw [← textTokens_line whole]
  cases behind : text.dropWhile (· ≠ '\n') with
  | nil =>
    rw [behind, List.append_nil] at split
    rw [split, textTokens_nil, nil_joined]
  | cons c later =>
    have feed : c = '\n' := feed_of_firstLine text c (by rw [behind]; rfl)
    rw [behind, feed] at split
    conv_lhs => rw [← split]
    rw [feed, textTokens_feed, textTokens_joined, List.count_eq_zero.mpr whole]

theorem ne_feed {text : List Char} (whole : '\n' ∉ text) : ∀ c ∈ text, decide (c ≠ '\n') = true := by
  intro c member
  rw [decide_eq_true_eq]
  rintro rfl
  exact whole member

/-- What stands at the start of a text and on one line is read first. -/
theorem textTokens_start (whole : '\n' ∉ start)
    (read : ∀ line, line <+: rest → lineTokens (start ++ line) n = joined found (lineTokens line n)) :
    textTokens n (start ++ rest) = joined found (textTokens n rest) := by
  rw [textTokens_split, List.takeWhile_append_of_pos (ne_feed whole),
    List.dropWhile_append_of_pos (ne_feed whole), read _ (List.takeWhile_prefix _), joined_assoc, ← textTokens_split]

theorem textTokens_blank {c : Char} (blank : Text.isBlank c) (inline : c ≠ '\n') (rest : List Char) :
    textTokens n (c :: rest) = textTokens n rest := by
  have whole : '\n' ∉ [c] := by simpa using inline.symm
  have read : ∀ line, line <+: rest →
      lineTokens ([c] ++ line) n = joined (.ok []) (lineTokens line n) := by
    intro line _
    rw [joined_nil, List.singleton_append, lineTokens_blank blank]
  have split := textTokens_start whole read
  rwa [joined_nil] at split

/-- Behind a blank the text goes on, on the next line if the blank is a line feed. -/
theorem textTokens_passed {c : Char} (blank : Text.isBlank c) (rest : List Char) :
    textTokens n (c :: rest) = textTokens (n + [c].count '\n') rest := by
  by_cases feed : c = '\n'
  · rw [feed, textTokens_feed, List.count_singleton_self]
  · have inline : [c].count '\n' = 0 := List.count_eq_zero.mpr (by simpa using Ne.symm feed)
    rw [textTokens_blank blank feed, inline, Nat.add_zero]

theorem textTokens_comment (text : List Char) :
    textTokens n ('/' :: '/' :: text) = textTokens n (text.dropWhile (· ≠ '\n')) := by
  rw [textTokens_split, List.takeWhile_cons_of_pos (by decide), List.takeWhile_cons_of_pos (by decide),
    lineTokens_comment, joined_nil, List.dropWhile_cons_of_pos (by decide),
    List.dropWhile_cons_of_pos (by decide)]

/-- A comment ends where its line ends. -/
theorem textTokens_comment_line {text : List Char} (whole : '\n' ∉ text)
    (stop : ∀ c ∈ rest.head?, c = '\n') :
    textTokens n ('/' :: '/' :: (text ++ rest)) = textTokens n rest := by
  rw [textTokens_comment, dropWhile_all (ne_feed whole)]
  intro c first
  simpa using stop c first

theorem head?_of_start {text whole : List Char} (start : text <+: whole) {c : Char}
    (first : c ∈ text.head?) : c ∈ whole.head? := by
  obtain ⟨later, rfl⟩ := start
  rw [List.head?_append, Option.mem_def.mp first]
  rfl

theorem textTokens_word (plain : ∀ c ∈ start, isWordChar c)
    (read : ∀ word, word <+: rest → wordTokens n (start ++ word) = joined found (wordTokens n word)) :
    textTokens n (start ++ rest) = joined found (textTokens n rest) := by
  simp only [isWordChar, Bool.and_eq_true, Bool.not_eq_true', decide_eq_true_eq] at plain
  have whole : '\n' ∉ start := fun feed => absurd (plain _ feed).1 (by decide)
  have bare : '/' ∉ start := fun slash => (plain _ slash).2 rfl
  apply textTokens_start whole
  intro line first
  apply lineTokens_start (fun c member => (plain c member).1) (beforeComment_append bare line)
  intro word inside
  exact read word (inside.trans first)

/-- Digits up to another character are a number. -/
theorem textTokens_number {digits : List Char} (some : digits ≠ []) (every : ∀ c ∈ digits, c.isDigit)
    (stop : ∀ c ∈ rest.head?, c.isDigit = false) :
    textTokens n (digits ++ rest) =
      joined (.ok [⟨.number, String.ofList digits, n⟩]) (textTokens n rest) := by
  apply textTokens_word fun c member => Assembly.isWordChar_of (by decide) (every c member)
  intro word first
  apply wordTokens_number some every
  intro c start
  exact stop c (head?_of_start first start)

/-- An identifier goes on as long as it can. -/
theorem textTokens_identifier {name : List Char} (identifier : IsIdentifier name)
    (stop : ∀ c ∈ rest.head?, isIdentifierRest c = false) :
    textTokens n (name ++ rest) =
      joined (.ok [⟨.identifier, String.ofList name, n⟩]) (textTokens n rest) := by
  apply textTokens_word fun c member => Assembly.isWordChar_of (by decide) (identifier.all c member)
  intro word first
  apply wordTokens_identifier identifier
  intro c start
  exact stop c (head?_of_start first start)

/-- A character that starts nothing: no gap, no token and, with what follows, no comment. -/
structure Stray (c : Char) (rest : List Char) : Prop where
  unblank : Text.isBlank c = false
  undigit : c.isDigit = false
  unstarted : isIdentifierStart c = false
  uncommented : ¬ (c = '/' ∧ rest.head? = some '/')

theorem textTokens_stray {c : Char} (stray : Stray c rest) :
    textTokens n (c :: rest) = .error ⟨n, c⟩ := by
  obtain ⟨unblank, undigit, unstarted, uncommented⟩ := stray
  have whole : '\n' ∉ [c] := by
    rw [List.mem_singleton]
    rintro rfl
    contradiction
  have read : ∀ line, line <+: rest →
      lineTokens ([c] ++ line) n = joined (.error ⟨n, c⟩) (lineTokens line n) := by
    intro line first
    apply lineTokens_start
    · exact List.forall_mem_singleton.mpr unblank
    · rw [List.singleton_append, beforeComment_cons, if_neg]
      · rfl
      · rintro ⟨slash, second⟩
        exact uncommented ⟨slash, head?_of_start first second⟩
    · intro word _
      exact wordTokens_stray undigit unstarted
  exact textTokens_start whole read

/-- What holds of the empty text and of every text that starts with a stray character, and is kept by
blanks, comments and tokens in front of a text, holds of every text. -/
@[elab_as_elim]
theorem source_induction {motive : List Char → Prop} (nil : motive [])
    (blank : ∀ c rest, Text.isBlank c → motive rest → motive (c :: rest))
    (comment : ∀ text, motive (text.dropWhile (· ≠ '\n')) → motive ('/' :: '/' :: text))
    (number : ∀ digits rest, digits ≠ [] → (∀ c ∈ digits, c.isDigit) →
      (∀ c ∈ rest.head?, c.isDigit = false) → motive rest → motive (digits ++ rest))
    (identifier : ∀ name rest, IsIdentifier name →
      (∀ c ∈ rest.head?, isIdentifierRest c = false) → motive rest → motive (name ++ rest))
    (stray : ∀ c rest, Stray c rest → motive (c :: rest)) (source : List Char) : motive source := by
  induction size : source.length using Nat.strongRecOn generalizing source with
  | ind size ih =>
    subst size
    cases source with
    | nil => exact nil
    | cons c rest =>
      have shorter (p : Char → Bool) (start : p c) :
          ((c :: rest).dropWhile p).length < (c :: rest).length := by
        rw [List.dropWhile_cons_of_pos start]
        exact Nat.lt_succ_of_le (List.dropWhile_suffix _).length_le
      by_cases separates : Text.isBlank c
      · exact blank c rest separates (ih _ (Nat.lt_succ_self _) rest rfl)
      by_cases digit : c.isDigit
      · have split := List.takeWhile_append_dropWhile (p := Char.isDigit) (l := c :: rest)
        rw [← split]
        apply number _ _ (by simp [digit]) (fun _ => List.mem_takeWhile_imp)
          (stop_dropWhile Char.isDigit _)
        exact ih _ (shorter _ digit) _ rfl
      by_cases start : isIdentifierStart c
      · have first : isIdentifierRest c := by simp [isIdentifierRest, start]
        have split := List.takeWhile_append_dropWhile (p := isIdentifierRest) (l := c :: rest)
        rw [← split]
        apply identifier _ _ _ (stop_dropWhile isIdentifierRest _)
        · exact ih _ (shorter _ first) _ rfl
        · refine ⟨c, rest.takeWhile isIdentifierRest, List.takeWhile_cons_of_pos first, start, ?_⟩
          exact fun _ => List.mem_takeWhile_imp
      by_cases opens : c = '/' ∧ rest.head? = some '/'
      · obtain ⟨rfl, second⟩ := opens
        obtain ⟨text, rfl⟩ := List.head?_eq_some_iff.mp second
        apply comment text
        apply ih _ _ _ rfl
        have within := (List.dropWhile_suffix (l := text) (· ≠ '\n')).length_le
        simp only [List.length_cons]
        omega
      · exact stray c rest ⟨by simpa using separates, by simpa using digit, by simpa using start, opens⟩

end Texts

end HackToolchain.Vm
