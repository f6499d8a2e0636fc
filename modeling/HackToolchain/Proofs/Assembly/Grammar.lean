import HackToolchain.Proofs.Assembly.Spelling

/-! What a text that is read consists of: spelled instructions, blanks, and comments up to the ends
of their lines. Nothing else is passed over. A comment is meant to start with two slashes, but the
reader takes one for enough. -/
namespace HackToolchain.Assembly

/-- A text cut into blanks, comments and spelled instructions, with the instructions in order. A
comment starts with `opener` and ends before a line feed or with the text, and an instruction ends
before a blank, before a slash or with the text. -/
inductive IsText (opener : List Char) : List Char → List Instruction → Prop where
  | nil : IsText opener [] []
  | blank {c : Char} {rest : List Char} {instructions : List Instruction}
    (separates : Text.isBlank c) (later : IsText opener rest instructions) :
    IsText opener (c :: rest) instructions
  | comment {text rest : List Char} {instructions : List Instruction} (whole : '\n' ∉ text)
    (ends : ∀ c ∈ rest.head?, c = '\n') (later : IsText opener rest instructions) :
    IsText opener (opener ++ text ++ rest) instructions
  | instruction {i : Instruction} {word rest : List Char} {instructions : List Instruction}
    (spelled : i.Spelled word) (ends : ∀ c ∈ rest.head?, isWordChar c = false)
    (later : IsText opener rest instructions) : IsText opener (word ++ rest) (i :: instructions)

/-- The first slash of a line, if it has one, is followed by another. -/
def LineDoubled (line : List Char) : Prop :=
  line.dropWhile (· ≠ '/') = [] ∨ ['/', '/'] <+: line.dropWhile (· ≠ '/')

instance : DecidablePred LineDoubled := fun line =>
  inferInstanceAs (Decidable (line.dropWhile (· ≠ '/') = [] ∨ _ <+: _))

def Doubled (source : List Char) : Prop :=
  ∀ line ∈ Text.lines source, LineDoubled line

instance : DecidablePred Doubled := fun source =>
  inferInstanceAs (Decidable (∀ line ∈ Text.lines source, LineDoubled line))

theorem doubled_feed (rest : List Char) : Doubled ('\n' :: rest) ↔ Doubled rest := by
  rw [Doubled, ← List.nil_append ('\n' :: rest), Text.lines_joined]
  exact List.forall_mem_cons.trans (and_iff_right (.inl rfl))

section Comment

variable {text rest : List Char} (whole : '\n' ∉ text) (ends : ∀ c ∈ rest.head?, c = '\n')

include whole ends

theorem dropWhile_comment : (text ++ rest).dropWhile (· ≠ '\n') = rest := by
  apply dropWhile_all
  · intro c member
    rw [decide_eq_true_eq]
    rintro rfl
    exact whole member
  · intro c first
    simpa using ends c first

theorem doubled_line : Doubled (text ++ rest) ↔ LineDoubled text ∧ Doubled rest := by
  cases rest with
  | nil =>
    have empty : Doubled [] := List.forall_mem_singleton.mpr (.inl rfl)
    rw [List.append_nil, Doubled, Text.lines_of_not_mem whole, List.forall_mem_singleton]
    exact (and_iff_left empty).symm
  | cons c rest =>
    obtain rfl := ends c rfl
    rw [doubled_feed, Doubled, Text.lines_joined, Text.lines_of_not_mem whole,
      List.singleton_append, List.forall_mem_cons, Doubled]

end Comment

/-- The end of the first line of a text. -/
theorem exists_line (source : List Char) : ∃ text rest, source = text ++ rest ∧ '\n' ∉ text ∧
    ∀ c ∈ rest.head?, c = '\n' :=
  ⟨source.takeWhile (· ≠ '\n'), source.dropWhile (· ≠ '\n'),
    List.takeWhile_append_dropWhile.symm, fun feed => by simpa using List.mem_takeWhile_imp feed,
    fun c first => by simpa using stop_dropWhile _ _ c first⟩

theorem doubled_cons {c : Char} (plain : c ≠ '/') (rest : List Char) :
    Doubled (c :: rest) ↔ Doubled rest := by
  by_cases feed : c = '\n'
  · exact feed ▸ doubled_feed rest
  · obtain ⟨text, rest, rfl, whole, ends⟩ := exists_line rest
    have line : '\n' ∉ c :: text := by simp [whole, Ne.symm feed]
    have same : LineDoubled (c :: text) ↔ LineDoubled text := by
      rw [LineDoubled, List.dropWhile_cons_of_pos (by simpa using plain), ← LineDoubled]
    rw [← List.cons_append, doubled_line line ends, doubled_line whole ends, same]

theorem doubled_word {word : List Char} (plain : ∀ c ∈ word, isWordChar c) (rest : List Char) :
    Doubled (word ++ rest) ↔ Doubled rest := by
  induction word with
  | nil => rfl
  | cons c word ih =>
    obtain ⟨first, plain⟩ := List.forall_mem_cons.mp plain
    have other : c ≠ '/' := by
      rintro rfl
      exact absurd first (by decide)
    rw [List.cons_append, doubled_cons other, ih plain]

theorem spells_of_isText {source : List Char} {instructions : List Instruction}
    (text : IsText ['/'] source instructions) :
    List.Forall₂ (fun word (i : Instruction) => i.Spelled word) (codeWords source)
      instructions := by
  induction text with
  | nil => exact .nil
  | blank separates _ ih => rwa [codeWords_blank separates]
  | comment whole ends _ ih =>
    rwa [List.append_assoc, List.singleton_append, codeWords_comment,
      dropWhile_comment whole ends]
  | instruction spelled ends _ ih =>
    rw [codeWords_word spelled.ne_nil spelled.isWordChar ends]
    exact .cons spelled ih

theorem isText_of_spells {source : List Char} {instructions : List Instruction}
    (spells : List.Forall₂ (fun word (i : Instruction) => i.Spelled word) (codeWords source)
      instructions) : IsText ['/'] source instructions := by
  induction source using text_induction generalizing instructions with
  | nil =>
    obtain rfl := List.forall₂_nil_left_iff.mp spells
    exact .nil
  | blank c rest separates ih =>
    rw [codeWords_blank separates] at spells
    exact .blank separates (ih spells)
  | comment text ih =>
    rw [codeWords_comment] at spells
    obtain ⟨line, rest, rfl, whole, ends⟩ := exists_line text
    rw [dropWhile_comment whole ends] at spells ih
    exact .comment whole ends (ih spells)
  | word word rest some plain stop ih =>
    rw [codeWords_word some plain stop] at spells
    obtain ⟨i, instructions, spelled, later, rfl⟩ := List.forall₂_cons_left_iff.mp spells
    exact .instruction spelled stop (ih later)

theorem parse_eq_ok_iff_isText {source : List Char} {instructions : List Instruction} :
    parse source = .ok instructions ↔ IsText ['/'] source instructions := by
  simp only [parse_eq_ok, ofWord_eq_ok]
  exact ⟨isText_of_spells, spells_of_isText⟩

theorem IsText.single {source : List Char} {instructions : List Instruction}
    (text : IsText ['/', '/'] source instructions) :
    IsText ['/'] source instructions ∧ Doubled source := by
  induction text with
  | nil => exact ⟨.nil, List.forall_mem_singleton.mpr (.inl rfl)⟩
  | @blank c _ _ separates _ ih =>
    have plain : c ≠ '/' := by
      rintro rfl
      exact absurd separates (by decide)
    exact ⟨.blank separates ih.1, (doubled_cons plain _).mpr ih.2⟩
  | @comment text rest _ whole ends _ ih =>
    have inside : '\n' ∉ '/' :: text := by simp [whole]
    have line : '\n' ∉ '/' :: '/' :: text := by simp [whole]
    have doubled : LineDoubled ('/' :: '/' :: text) := .inr (by simp)
    exact ⟨.comment inside ends ih.1, (doubled_line line ends).mpr ⟨doubled, ih.2⟩⟩
  | instruction spelled ends _ ih =>
    exact ⟨.instruction spelled ends ih.1, (doubled_word spelled.isWordChar _).mpr ih.2⟩

theorem IsText.double {source : List Char} {instructions : List Instruction}
    (text : IsText ['/'] source instructions) (doubled : Doubled source) :
    IsText ['/', '/'] source instructions := by
  induction text with
  | nil => exact .nil
  | @blank c _ _ separates _ ih =>
    have plain : c ≠ '/' := by
      rintro rfl
      exact absurd separates (by decide)
    exact .blank separates (ih ((doubled_cons plain _).mp doubled))
  | @comment text rest _ whole ends _ ih =>
    have line : '\n' ∉ '/' :: text := by simp [whole]
    obtain ⟨first, later⟩ := (doubled_line line ends).mp doubled
    obtain ⟨text, rfl⟩ : ∃ after, text = '/' :: after := by
      obtain none | ⟨after, slashes⟩ := first
      · simp at none
      · exact ⟨after, by simpa using slashes.symm⟩
    have inside : '\n' ∉ text := by simpa using whole
    exact .comment inside ends (ih later)
  | instruction spelled ends _ ih =>
    exact .instruction spelled ends (ih ((doubled_word spelled.isWordChar _).mp doubled))

/-- A text is read as a list of instructions exactly if it consists of spellings of these
instructions in order, of blanks, and of comments from a slash to the end of their line. It is the
text that the grammar asks for, with two slashes before each comment, exactly if moreover no line
has its first slash alone. -/
theorem parse_covers (source : List Char) (instructions : List Instruction) :
    (parse source = .ok instructions ↔ IsText ['/'] source instructions) ∧
    (IsText ['/', '/'] source instructions ↔
      parse source = .ok instructions ∧ Doubled source) := by
  refine ⟨parse_eq_ok_iff_isText, ?_⟩
  rw [parse_eq_ok_iff_isText]
  exact ⟨IsText.single, fun ⟨text, doubled⟩ => text.double doubled⟩

/-- Text behind an instruction is dropped without an error if a single slash stands before it. -/
theorem remainder_dropped :
    parse "D=D/A".toList = .ok [.compute ⟨false, true, false⟩ (.unary none .d) none] ∧
      ¬ ∃ instructions, IsText ['/', '/'] "D=D/A".toList instructions := by
  refine ⟨by decide +kernel, ?_⟩
  rintro ⟨instructions, text⟩
  exact absurd text.single.2 (by decide +kernel)

end HackToolchain.Assembly
