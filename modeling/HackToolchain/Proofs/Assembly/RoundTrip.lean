import HackToolchain.Assembly.Program
import HackToolchain.Proofs.Assembly.Spelling

/-! Instructions survive being written and read again, however they are spaced and commented: gaps
have no words, and whatever is read from a word can be written as one. -/
namespace HackToolchain.Assembly

/-- What may stand around instructions: blanks and comments up to the ends of their lines. -/
inductive IsGap : List Char → Prop where
  | nil : IsGap []
  | blank {c : Char} {rest : List Char} (separates : Text.isBlank c) (gap : IsGap rest) :
    IsGap (c :: rest)
  | comment {text rest : List Char} (whole : '\n' ∉ text) (gap : IsGap rest) :
    IsGap ('/' :: '/' :: text ++ '\n' :: rest)

theorem codeWords_gap {gap : List Char} (isGap : IsGap gap) (rest : List Char) :
    codeWords (gap ++ rest) = codeWords rest := by
  induction isGap with
  | nil => rfl
  | blank separates _ ih => exact (codeWords_blank separates _).trans ih
  | @comment text after whole _ ih =>
    have inside : ∀ c ∈ '/' :: text, decide (c ≠ '\n') := by
      intro c member
      rw [decide_eq_true_eq]
      rintro rfl
      simp [whole] at member
    have dropped : ('/' :: text ++ '\n' :: (after ++ rest)).dropWhile (· ≠ '\n') =
        '\n' :: (after ++ rest) := dropWhile_all inside (by simp)
    calc codeWords ('/' :: '/' :: text ++ '\n' :: after ++ rest)
      _ = codeWords ('/' :: ('/' :: text ++ '\n' :: (after ++ rest))) := by simp
      _ = codeWords ('\n' :: (after ++ rest)) := by rw [codeWords_comment, dropped]
      _ = codeWords rest := by rw [codeWords_blank (by decide), ih]

theorem IsGap.stop {gap : List Char} (isGap : IsGap gap) :
    ∀ c ∈ gap.head?, isWordChar c = false := by
  cases isGap with
  | nil => simp
  | blank separates _ =>
    rintro _ ⟨⟩
    simp [isWordChar, separates]
  | comment _ _ =>
    rintro _ ⟨⟩
    decide

theorem IsGap.append {first second : List Char} (isGap : IsGap first) (isGap' : IsGap second) :
    IsGap (first ++ second) := by
  induction isGap with
  | nil => exact isGap'
  | blank separates _ ih => exact .blank separates ih
  | comment whole _ ih =>
    rw [List.append_assoc]
    exact .comment whole ih

/-- Instructions written one after the other, each with the gap after it. -/
def spreadChars (items : List (Instruction × List Char)) : List Char :=
  items.flatMap fun item => item.1.text.toList ++ item.2

theorem codeWords_spreadChars {items : List (Instruction × List Char)}
    (legal : ∀ item ∈ items, item.1.Writable ∧ IsGap item.2)
    (apart : ∀ item ∈ items.dropLast, item.2 ≠ []) :
    codeWords (spreadChars items) = items.map (·.1.text.toList) := by
  induction items with
  | nil => rfl
  | cons item rest ih =>
    obtain ⟨⟨writable, isGap⟩, legal⟩ := List.forall_mem_cons.mp legal
    have later : ∀ other ∈ rest.dropLast, other.2 ≠ [] := by
      intro other member
      apply apart other
      cases rest with
      | nil => contradiction
      | cons next rest => exact List.mem_cons_of_mem item member
    have stop : ∀ c ∈ (item.2 ++ spreadChars rest).head?, isWordChar c = false := by
      intro c first
      rw [List.head?_append] at first
      cases start : item.2.head? with
      | some other =>
        rw [start] at first
        exact isGap.stop c (start.trans first)
      | none =>
        cases rest with
        | nil => simp [start, spreadChars] at first
        | cons next rest =>
          exact absurd (List.head?_eq_none_iff.mp start) (apart item (by simp))
    rw [spreadChars, List.flatMap_cons, ← spreadChars, List.append_assoc,
      codeWords_word (text_ne_nil item.1) (isWordChar_text writable) stop,
      codeWords_gap isGap, ih legal later, List.map_cons]

/-- However instructions are spread out, they are read. -/
theorem parse_spreadChars {before : List Char} {items : List (Instruction × List Char)}
    (isGap : IsGap before) (legal : ∀ item ∈ items, item.1.Writable ∧ IsGap item.2)
    (apart : ∀ item ∈ items.dropLast, item.2 ≠ []) :
    parse (before ++ spreadChars items) = .ok (items.map Prod.fst) := by
  rw [parse_eq_ok, codeWords_gap isGap, codeWords_spreadChars legal apart,
    List.forall₂_map_left_iff, List.forall₂_map_right_iff, List.forall₂_same]
  exact fun item member => ofWord_text (legal item member).1

/-- The parser's range: whatever it answers can be written. -/
theorem writable_of_parse {source : List Char} {instructions : List Instruction}
    (parsed : parse source = .ok instructions) : ∀ i ∈ instructions, i.Writable := by
  intro i member
  obtain ⟨word, -, read⟩ := exists_of_mem_right (parse_eq_ok.mp parsed) member
  exact (ofWord_eq_ok.mp read).writable

/-- Instructions in their written form, with bytes before the first and after each of them. -/
def spread (before : ByteArray) (items : List (Instruction × ByteArray)) : ByteArray :=
  items.foldl (fun bytes item => bytes ++ item.1.text.toUTF8 ++ item.2) before

/-- The bytes around instructions are gaps, with none missing between two instructions. -/
structure Spaced (before : ByteArray) (items : List (Instruction × ByteArray)) : Prop where
  first : IsGap (characters before)
  gaps : ∀ item ∈ items, IsGap (characters item.2)
  apart : ∀ item ∈ items.dropLast, item.2 ≠ .empty

theorem characters_spread (before : ByteArray) {items : List (Instruction × ByteArray)}
    (writable : ∀ item ∈ items, item.1.Writable) :
    characters (spread before items) = characters before ++
      spreadChars (items.map fun item => (item.1, characters item.2)) := by
  induction items generalizing before with
  | nil => simp [spread, spreadChars]
  | cons item rest ih =>
    obtain ⟨first, rest⟩ := List.forall_mem_cons.mp writable
    have text : characters item.1.text.toUTF8 = item.1.text.toList :=
      characters_toUTF8 (ascii_text first)
    rw [spread, List.foldl_cons, ← spread, ih _ rest, characters_append, characters_append, text]
    simp [spreadChars]

theorem characters_eq_nil {bytes : ByteArray} : characters bytes = [] ↔ bytes = .empty := by
  rw [characters, List.map_eq_nil_iff, Array.toList_eq_nil_iff, ByteArray.ext_iff,
    ByteArray.data_empty]

theorem parse_spread {before : ByteArray} {items : List (Instruction × ByteArray)}
    (spaced : Spaced before items) (writable : ∀ item ∈ items, item.1.Writable) :
    parse (characters (spread before items)) = .ok (items.map Prod.fst) := by
  let read := items.map fun item => (item.1, characters item.2)
  have legal : ∀ item ∈ read, item.1.Writable ∧ IsGap item.2 :=
    List.forall_mem_map.mpr fun item member => ⟨writable item member, spaced.gaps item member⟩
  have apart : ∀ item ∈ read.dropLast, item.2 ≠ [] := by
    rw [← List.map_dropLast, List.forall_mem_map]
    exact fun item member => characters_eq_nil.not.mpr (spaced.apart item member)
  rw [characters_spread before writable, parse_spreadChars spaced.first legal apart, List.map_map]
  rfl

/-- Whatever instructions the parser can answer are read back from their written form, in any
spacing and with any comments; so a source and its instructions written anew have the same words
or the same error. -/
theorem parse_written :
    (∀ before items, Spaced before items → (∀ item ∈ items, item.1.Writable) →
      parse (characters (spread before items)) = .ok (items.map Prod.fst)) ∧
    ∀ source instructions, parse source = .ok instructions →
      (∀ i ∈ instructions, i.Writable) ∧
      ∀ before items, Spaced before items → items.map Prod.fst = instructions →
        parse (characters (spread before items)) = .ok instructions ∧
        assemble (characters (spread before items)) = assemble source := by
  constructor
  · intro before items spaced writable
    exact parse_spread spaced writable
  · intro source instructions parsed
    have writable := writable_of_parse parsed
    refine ⟨writable, ?_⟩
    rintro before items spaced rfl
    have again := parse_spread spaced (List.forall_mem_map.mp writable)
    refine ⟨again, ?_⟩
    rw [assemble, assemble, again, parsed]

theorem parse_written_commented :
    parse (characters (spread " // two\n".toUTF8 [(.address "2", "//\n\t".toUTF8),
      (.compute ⟨true, false, true⟩ (.binary .d .minus .one) (some .ne), " ".toUTF8),
      (.label "A.1", .empty)])) =
    .ok [.address "2", .compute ⟨true, false, true⟩ (.binary .d .minus .one) (some .ne),
      .label "A.1"] := by
  apply parse_written.1
  · constructor
    · exact .blank (by decide) (.comment (by decide : '\n' ∉ " two".toList) .nil)
    · simp only [List.forall_mem_cons]
      exact ⟨.comment (by decide : '\n' ∉ "".toList) (.blank (by decide) .nil),
        .blank (by decide) .nil, .nil, by simp⟩
    · decide
  · simp only [List.forall_mem_cons]
    exact ⟨(by decide : IsSymbolText "2"), (by decide : Operator.minus ≠ .not),
      (by decide : IsSymbolText "A.1"), by simp⟩

end HackToolchain.Assembly
