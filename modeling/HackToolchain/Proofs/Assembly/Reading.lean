import Mathlib
import HackToolchain.Assembly.Source

/-! Reading assembly text. What counts in a text is the sequence of its words outside comments, each
with the number of its line: blanks and comments add nothing to it, and a word ends where anything
else follows. -/
namespace HackToolchain

theorem bind_eq_ok {x : Except ε α} {f : α → Except ε β} {b : β}
    (result : (x >>= f) = .ok b) : ∃ a, x = .ok a ∧ f a = .ok b := by
  cases x with
  | error e => contradiction
  | ok a => exact ⟨a, rfl, result⟩

theorem ok_bind (a : α) (f : α → Except ε β) : (Except.ok a >>= f) = f a :=
  rfl

theorem exists_of_mem_right {r : α → β → Prop} {items : List α} {others : List β} {b : β}
    (related : List.Forall₂ r items others) (member : b ∈ others) : ∃ a ∈ items, r a b := by
  obtain ⟨index, bound, rfl⟩ := List.getElem_of_mem member
  have within : index < items.length := related.length_eq ▸ bound
  exact ⟨items[index], List.getElem_mem within,
    (List.forall₂_iff_get.mp related).2 index within bound⟩

theorem exists_related_getElem? {r : α → β → Prop} {items : List α} {others : List β} {index : Nat}
    {a : α} (related : List.Forall₂ r items others) (found : items[index]? = some a) :
    ∃ b, others[index]? = some b ∧ r a b := by
  obtain ⟨bound, rfl⟩ := List.getElem?_eq_some_iff.mp found
  have within : index < others.length := related.length_eq ▸ bound
  exact ⟨others[index], List.getElem?_eq_getElem within,
    (List.forall₂_iff_get.mp related).2 index bound within⟩

theorem stop_dropWhile (p : α → Bool) (items : List α) :
    ∀ item ∈ (items.dropWhile p).head?, p item = false := by
  intro item first
  have stops := List.head?_dropWhile_not p items
  rwa [Option.mem_def.mp first] at stops

namespace Text

theorem length_lines (text : List Char) : (lines text).length = text.count '\n' + 1 := by
  induction text with
  | nil => rfl
  | cons c rest ih =>
    rw [lines, List.splitOn_cons_eq_if_modifyHead, ← lines]
    by_cases ends : c = '\n'
    · subst ends
      simp [ih]
    · simp [ends, ih]

theorem lines_joined (first second : List Char) :
    lines (first ++ '\n' :: second) = lines first ++ lines second :=
  List.splitOn_append_cons_self first second

/-- The lines of the second text are numbered on. -/
theorem zipIdx_lines_joined (first second : List Char) (number : Nat) :
    (lines (first ++ '\n' :: second)).zipIdx number =
      (lines first).zipIdx number ++ (lines second).zipIdx (number + (first.count '\n' + 1)) := by
  rw [lines_joined, List.zipIdx_append, length_lines]

theorem lines_of_not_mem {line : List Char} (whole : '\n' ∉ line) : lines line = [line] :=
  List.splitOn_eq_singleton whole

end Text

namespace Assembly

theorem exists_split_cons {p : List α → α → Prop} {item : α} {rest : List α} :
    (∃ before found after, item :: rest = before ++ found :: after ∧ p before found) ↔
      p [] item ∨ ∃ before found after, rest = before ++ found :: after ∧
        p (item :: before) found := by
  constructor
  · rintro ⟨before, found, after, split, holds⟩
    cases before with
    | nil =>
      obtain ⟨rfl, rfl⟩ := List.cons.inj split
      exact .inl holds
    | cons first before =>
      obtain ⟨rfl, rfl⟩ := List.cons.inj split
      exact .inr ⟨before, found, after, rfl, holds⟩
  · rintro (holds | ⟨before, found, after, rfl, holds⟩)
    · exact ⟨[], item, rest, rfl, holds⟩
    · exact ⟨item :: before, found, after, rfl, holds⟩

theorem mapM_eq_ok {f : α → Except ε β} {items : List α} {results : List β} :
    items.mapM f = .ok results ↔
      List.Forall₂ (fun item result => f item = .ok result) items results := by
  induction items generalizing results with
  | nil => simp [pure, Except.pure, eq_comm]
  | cons item rest ih =>
    rw [List.mapM_cons, List.forall₂_cons_left_iff]
    cases first : f item with
    | error e => simp [bind, Except.bind]
    | ok result =>
      cases later : rest.mapM f with
      | error e =>
        simp only [bind, Except.bind, reduceCtorEq, false_iff, not_exists, not_and]
        intro _ others _ found
        rw [← ih, later] at found
        contradiction
      | ok others =>
        have found := ih.mp later
        simp only [bind, Except.bind, pure, Except.pure, Except.ok.injEq]
        constructor
        · rintro rfl
          exact ⟨result, others, rfl, found, rfl⟩
        · rintro ⟨_, _, rfl, same, rfl⟩
          rw [← ih, later, Except.ok.injEq] at same
          rw [same]

theorem mapM_eq_error {f : α → Except ε β} {items : List α} {e : ε}
    (failed : items.mapM f = .error e) : ∃ item ∈ items, f item = .error e := by
  induction items with
  | nil => simp [pure, Except.pure] at failed
  | cons item rest ih =>
    rw [List.mapM_cons] at failed
    cases first : f item with
    | error fault =>
      rw [first] at failed
      exact ⟨item, List.mem_cons_self, first.trans (congrArg _ (Except.error.inj failed))⟩
    | ok result =>
      cases later : rest.mapM f with
      | error fault =>
        rw [first, later] at failed
        obtain ⟨other, member, found⟩ := ih (later.trans (congrArg _ (Except.error.inj failed)))
        exact ⟨other, List.mem_cons_of_mem _ member, found⟩
      | ok others =>
        rw [first, later] at failed
        contradiction

theorem mapM_flatMap (g : α → List β) (f : β → Except ε γ) (items : List α) :
    (items.flatMap g).mapM f = do
      let parts ← items.mapM fun item => (g item).mapM f
      return parts.flatten := by
  induction items with
  | nil => rfl
  | cons item rest ih =>
    simp only [List.flatMap_cons, List.mapM_append, ih, List.mapM_cons, bind_assoc, pure_bind,
      List.flatten_cons]

theorem takeWhile_all {p : α → Bool} {text rest : List α} (all : ∀ c ∈ text, p c)
    (stop : ∀ c ∈ rest.head?, p c = false) : (text ++ rest).takeWhile p = text := by
  rw [List.takeWhile_append_of_pos all]
  cases rest with
  | nil => simp
  | cons c rest => simp [stop c rfl]

theorem dropWhile_all {p : Char → Bool} {text rest : List Char} (all : ∀ c ∈ text, p c)
    (stop : ∀ c ∈ rest.head?, p c = false) : (text ++ rest).dropWhile p = rest := by
  rw [List.dropWhile_append_of_pos all]
  cases rest with
  | nil => simp
  | cons c rest => simp [stop c rfl]

/-- A character that neither separates words nor starts a comment. -/
def isWordChar (c : Char) : Bool :=
  !Text.isBlank c && c ≠ '/'

theorem isWordChar_of {p : Char → Bool}
    (excluded : " \t\n\x0c\r/".toList.all (!p ·)) {c : Char}
    (holds : p c) : isWordChar c := by
  by_contra other
  have member : c ∈ " \t\n\x0c\r/".toList := by
    simp only [isWordChar, Text.isBlank, Bool.and_eq_true, Bool.not_eq_true', decide_eq_true_eq,
      not_and, not_not] at other
    by_cases blank : c = ' ' ∨ c = '\t' ∨ c = '\n' ∨ c = '\x0c' ∨ c = '\r'
    · rcases blank with rfl | rfl | rfl | rfl | rfl <;> decide
    · have slash := other (by simpa [and_assoc] using blank)
      subst slash
      decide
  have never := List.all_eq_true.mp excluded c member
  rw [holds] at never
  contradiction

theorem lines_flatMap {lines : List (List Char)} (whole : ∀ line ∈ lines, '\n' ∉ line) :
    Text.lines (lines.flatMap (· ++ ['\n'])) = lines ++ [[]] := by
  induction lines with
  | nil => rfl
  | cons line rest ih =>
    obtain ⟨first, rest⟩ := List.forall_mem_cons.mp whole
    rw [List.flatMap_cons, List.append_assoc, List.singleton_append, Text.lines,
      List.splitOn_append_cons_self_of_not_mem first, ← Text.lines, ih rest, List.cons_append]

/-- The words of a line before its comment. -/
def lineWords (line : List Char) : List (List Char) :=
  Text.words (line.takeWhile (· ≠ '/'))

/-- The words of a text outside comments, in order. -/
def codeWords (source : List Char) : List (List Char) :=
  (Text.lines source).flatMap lineWords

/-- The words of a text outside comments, each with the number of its line. -/
def numberedWords (number : Nat) (source : List Char) : List (List Char × Nat) :=
  ((Text.lines source).zipIdx number).flatMap fun (line, number) => (lineWords line).map (·, number)

/-- A word has to be one instruction. -/
def readWord (word : List Char × Nat) : Except Error Instruction :=
  (Instruction.ofWord word.1).mapError (.syntactic word.2)

/-- A text is read word by word, whatever stands between the words. -/
theorem parse_eq (source : List Char) : parse source = (numberedWords 1 source).mapM readWord := by
  simp only [parse, parseLine, numberedWords, mapM_flatMap, List.mapM_map]
  rfl

/-- Every fault of a text is a fault of one of its words. -/
theorem parse_eq_error {source : List Char} {e : Error} (failed : parse source = .error e) :
    ∃ line fault, e = .syntactic line fault := by
  rw [parse_eq] at failed
  obtain ⟨⟨word, line⟩, _, failed⟩ := mapM_eq_error failed
  cases read : Instruction.ofWord word with
  | ok i => simp [readWord, read, Except.mapError] at failed
  | error fault =>
    exact ⟨line, fault, by simpa [readWord, read, Except.mapError, eq_comm] using failed⟩

theorem map_fst_numberedWords (number : Nat) (source : List Char) :
    (numberedWords number source).map Prod.fst = codeWords source := by
  have unnumbered : ((Text.lines source).zipIdx number).map Prod.fst = Text.lines source :=
    List.zipIdx_map_fst number _
  rw [numberedWords, codeWords, List.map_flatMap]
  conv_rhs => rw [← unnumbered, List.flatMap_map]
  simp only [List.map_map, Function.comp_def, List.map_id']

theorem parse_eq_ok {source : List Char} {instructions : List Instruction} :
    parse source = .ok instructions ↔
      List.Forall₂ (fun word i => Instruction.ofWord word = .ok i) (codeWords source)
        instructions := by
  have same (word : List Char × Nat) (i : Instruction) :
      readWord word = .ok i ↔ Instruction.ofWord word.1 = .ok i := by
    rw [readWord]
    cases Instruction.ofWord word.1 <;> simp [Except.mapError]
  rw [parse_eq, mapM_eq_ok, ← map_fst_numberedWords 1, List.forall₂_map_left_iff]
  simp only [same]

theorem numberedWords_joined (number : Nat) (first second : List Char) :
    numberedWords number (first ++ '\n' :: second) =
      numberedWords number first ++ numberedWords (number + (first.count '\n' + 1)) second := by
  rw [numberedWords, Text.zipIdx_lines_joined, List.flatMap_append, ← numberedWords,
    ← numberedWords]

theorem numberedWords_line {line : List Char} (whole : '\n' ∉ line) (number : Nat) :
    numberedWords number line = (lineWords line).map (·, number) := by
  rw [numberedWords, Text.lines_of_not_mem whole]
  exact List.flatMap_singleton ..

theorem numberedWords_append {start rest : List Char} {found : List (List Char)}
    (whole : '\n' ∉ start)
    (starts : ∀ line, line <+: rest → '\n' ∉ line →
      lineWords (start ++ line) = found ++ lineWords line) (number : Nat) :
    numberedWords number (start ++ rest) = found.map (·, number) ++ numberedWords number rest := by
  by_cases split : '\n' ∈ rest
  · obtain ⟨line, later, rfl, unbroken⟩ := List.eq_append_cons_of_mem split
    have joined : '\n' ∉ start ++ line := by simp [whole, unbroken]
    have count : (start ++ line).count '\n' = line.count '\n' := by
      rw [List.count_eq_zero.mpr joined, List.count_eq_zero.mpr unbroken]
    rw [← List.append_assoc, numberedWords_joined, numberedWords_joined, count,
      numberedWords_line joined, numberedWords_line unbroken,
      starts line (List.prefix_append _ _) unbroken, List.map_append, List.append_assoc]
  · have joined : '\n' ∉ start ++ rest := by simp [whole, split]
    rw [numberedWords_line joined, numberedWords_line split,
      starts rest List.prefix_rfl split, List.map_append]

theorem numberedWords_feed (number : Nat) (rest : List Char) :
    numberedWords number ('\n' :: rest) = numberedWords (number + 1) rest :=
  numberedWords_joined number [] rest

theorem words_blank {c : Char} (blank : Text.isBlank c) (line : List Char) :
    Text.words (c :: line) = Text.words line := by
  rw [Text.words, List.splitOnP_cons_eq_if_modifyHead, if_pos blank]
  rfl

theorem lineWords_blank {c : Char} (blank : Text.isBlank c) (line : List Char) :
    lineWords (c :: line) = lineWords line := by
  have plain : c ≠ '/' := by
    rintro rfl
    exact absurd blank (by decide)
  rw [lineWords, List.takeWhile_cons_of_pos (by simpa using plain), words_blank blank, ← lineWords]

theorem numberedWords_blank {c : Char} (blank : Text.isBlank c) (inline : c ≠ '\n') (number : Nat)
    (rest : List Char) : numberedWords number (c :: rest) = numberedWords number rest := by
  have whole : '\n' ∉ [c] := by simpa using inline.symm
  have starts : ∀ line, line <+: rest → '\n' ∉ line →
      lineWords ([c] ++ line) = [] ++ lineWords line :=
    fun line _ _ => lineWords_blank blank line
  exact numberedWords_append whole starts number

theorem lineWords_comment (text : List Char) : lineWords ('/' :: text) = [] := by
  simp [lineWords, Text.words]

theorem numberedWords_comment (number : Nat) (text : List Char) :
    numberedWords number ('/' :: text) = numberedWords number (text.dropWhile (· ≠ '\n')) := by
  have whole : '\n' ∉ '/' :: text.takeWhile (· ≠ '\n') := by
    intro feed
    have inside := (List.mem_cons.mp feed).resolve_left (by decide)
    simpa using List.mem_takeWhile_imp inside
  have starts : ∀ line, line <+: text.dropWhile (· ≠ '\n') → '\n' ∉ line →
      lineWords ('/' :: text.takeWhile (· ≠ '\n') ++ line) = [] ++ lineWords line := by
    intro line first unbroken
    cases line with
    | nil => simp [lineWords, Text.words]
    | cons c line =>
      obtain ⟨later, split⟩ := first
      have stops := stop_dropWhile (· ≠ '\n') text c (by rw [← split]; rfl)
      have feed : c = '\n' := by simpa using stops
      simp [feed] at unbroken
  have cut := numberedWords_append whole starts number
  rwa [List.cons_append, List.takeWhile_append_dropWhile] at cut

theorem words_word {word line : List Char} (some : word ≠ [])
    (unbroken : ∀ c ∈ word, Text.isBlank c = false) (stop : ∀ c ∈ line.head?, Text.isBlank c) :
    Text.words (word ++ line) = word :: Text.words line := by
  have kept : (!word.isEmpty) = true := by simpa using some
  cases line with
  | nil =>
    rw [List.append_nil, Text.words, List.splitOnP_eq_singleton unbroken, List.filter_cons,
      if_pos kept]
    rfl
  | cons c line =>
    have blank := stop c rfl
    rw [words_blank blank, Text.words,
      List.splitOnP_append_cons_of_forall_mem unbroken c blank, List.filter_cons, if_pos kept,
      ← Text.words]

theorem lineWords_word {word line : List Char} (some : word ≠ [])
    (plain : ∀ c ∈ word, isWordChar c) (stop : ∀ c ∈ line.head?, isWordChar c = false) :
    lineWords (word ++ line) = word :: lineWords line := by
  simp only [isWordChar, Bool.and_eq_true, Bool.not_eq_true', decide_eq_true_eq] at plain
  rw [lineWords, List.takeWhile_append_of_pos fun c member => decide_eq_true (plain c member).2]
  apply words_word some fun c member => (plain c member).1
  cases line with
  | nil => simp
  | cons c line =>
    have separates := stop c rfl
    by_cases slash : c = '/'
    · simp [slash]
    · have blank : Text.isBlank c := by simpa [isWordChar, slash] using separates
      simpa [slash] using blank

theorem numberedWords_word {word rest : List Char} (some : word ≠ [])
    (plain : ∀ c ∈ word, isWordChar c) (stop : ∀ c ∈ rest.head?, isWordChar c = false)
    (number : Nat) :
    numberedWords number (word ++ rest) = (word, number) :: numberedWords number rest := by
  have inline : '\n' ∉ word := by
    intro feed
    exact absurd (plain _ feed) (by decide)
  have starts : ∀ line, line <+: rest → '\n' ∉ line →
      lineWords (word ++ line) = [word] ++ lineWords line := by
    rintro line ⟨tail, rfl⟩ _
    apply lineWords_word some plain
    intro c first
    apply stop c
    rw [List.head?_append, first]
    rfl
  exact numberedWords_append inline starts number

/-- What holds of the empty text and is kept by blanks, comments and words in front of a text holds
of every text. -/
@[elab_as_elim]
theorem text_induction {motive : List Char → Prop} (nil : motive [])
    (blank : ∀ c rest, Text.isBlank c → motive rest → motive (c :: rest))
    (comment : ∀ text, motive (text.dropWhile (· ≠ '\n')) → motive ('/' :: text))
    (word : ∀ word rest, word ≠ [] → (∀ c ∈ word, isWordChar c) →
      (∀ c ∈ rest.head?, isWordChar c = false) → motive rest → motive (word ++ rest))
    (source : List Char) : motive source := by
  induction size : source.length using Nat.strongRecOn generalizing source with
  | ind size ih =>
    subst size
    cases source with
    | nil => exact nil
    | cons c rest =>
      by_cases separates : Text.isBlank c
      · exact blank c rest separates (ih _ (Nat.lt_succ_self _) rest rfl)
      by_cases slash : c = '/'
      · have shorter := (List.dropWhile_suffix (l := rest) (· ≠ '\n')).length_le
        exact slash ▸ comment rest (ih _ (Nat.lt_succ_of_le shorter) _ rfl)
      have start : isWordChar c := by simp [isWordChar, separates, slash]
      have split := List.takeWhile_append_dropWhile (p := isWordChar) (l := c :: rest)
      have some : (c :: rest).takeWhile isWordChar ≠ [] := by simp [start]
      have shorter : ((c :: rest).dropWhile isWordChar).length < (c :: rest).length := by
        rw [List.dropWhile_cons_of_pos start]
        exact Nat.lt_succ_of_le (List.dropWhile_suffix _).length_le
      rw [← split]
      exact word _ _ some (fun _ => List.mem_takeWhile_imp) (stop_dropWhile isWordChar _)
        (ih _ shorter _ rfl)

theorem codeWords_blank {c : Char} (blank : Text.isBlank c) (rest : List Char) :
    codeWords (c :: rest) = codeWords rest := by
  rw [← map_fst_numberedWords 1]
  by_cases feed : c = '\n'
  · rw [feed, numberedWords_feed, map_fst_numberedWords]
  · rw [numberedWords_blank blank feed, map_fst_numberedWords]

theorem codeWords_comment (text : List Char) :
    codeWords ('/' :: text) = codeWords (text.dropWhile (· ≠ '\n')) := by
  rw [← map_fst_numberedWords 1, numberedWords_comment, map_fst_numberedWords]

theorem codeWords_word {word rest : List Char} (some : word ≠ [])
    (plain : ∀ c ∈ word, isWordChar c) (stop : ∀ c ∈ rest.head?, isWordChar c = false) :
    codeWords (word ++ rest) = word :: codeWords rest := by
  rw [← map_fst_numberedWords 1, numberedWords_word some plain stop, List.map_cons,
    map_fst_numberedWords]

def byteChar (byte : UInt8) : Char :=
  Char.ofNat byte.toNat

theorem toNat_byteChar (byte : UInt8) : (byteChar byte).toNat = byte.toNat := by
  have valid : byte.toNat.isValidChar := .inl (Nat.lt_trans byte.toNat_lt (by decide))
  rw [byteChar, Char.toNat_ofNat, if_pos valid]

theorem byteChar_injective : Function.Injective byteChar := by
  intro byte other same
  exact UInt8.toNat_inj.mp
    (toNat_byteChar byte ▸ toNat_byteChar other ▸ congrArg Char.toNat same)

theorem count_characters (byte : UInt8) (bytes : ByteArray) :
    (characters bytes).count (byteChar byte) = bytes.data.toList.count byte :=
  List.count_map_of_injective _ _ byteChar_injective byte

theorem characters_append (first second : ByteArray) :
    characters (first ++ second) = characters first ++ characters second := by
  simp [characters]

/-- Text without characters beyond ASCII is read as it was written. -/
theorem characters_utf8Encode {text : List Char} (ascii : ∀ c ∈ text, c.toNat < 128) :
    characters text.utf8Encode = text := by
  induction text with
  | nil => rfl
  | cons c rest ih =>
    obtain ⟨small, ascii⟩ := List.forall_mem_cons.mp ascii
    have one : String.utf8EncodeChar c = [UInt8.ofNat c.toNat] :=
      if_pos (Nat.le_of_lt_succ small)
    have byte : (UInt8.ofNat c.toNat).toNat = c.toNat := by
      rw [UInt8.toNat_ofNat']
      omega
    rw [List.utf8Encode_cons, characters_append, ih ascii, List.utf8Encode_singleton, one]
    simp [characters, byte, Char.ofNat_toNat]

theorem characters_toUTF8 {text : String} (ascii : ∀ c ∈ text.toList, c.toNat < 128) :
    characters text.toUTF8 = text.toList := by
  rw [String.toUTF8_eq_toByteArray, ← String.utf8Encode_toList, characters_utf8Encode ascii]

end Assembly

end HackToolchain
