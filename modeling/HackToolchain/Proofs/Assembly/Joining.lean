import HackToolchain.Proofs.Assembly.Reading

/-! Texts joined by a line feed. No instruction runs over the end of a line, so the words of the
second text are those that it has alone, so many lines further down. -/
namespace HackToolchain.Assembly

/-- Only faults of the text have a line. -/
def Error.later : Error → Nat → Error
  | .syntactic line fault, n => .syntactic (line + n) fault
  | e, _ => e

theorem mapM_mapError (f : α → Except ε β) (g : ε → ε') (items : List α) :
    (items.mapM fun item => (f item).mapError g) = (items.mapM f).mapError g := by
  induction items with
  | nil => rfl
  | cons item rest ih =>
    rw [List.mapM_cons, List.mapM_cons, ih]
    cases f item with
    | error e => rfl
    | ok result => cases rest.mapM f <;> rfl

theorem numberedWords_later (number n : Nat) (source : List Char) :
    numberedWords (number + n) source =
      (numberedWords number source).map (Prod.map id (· + n)) := by
  rw [numberedWords, numberedWords, Nat.add_comm, ← List.map_snd_add_zipIdx_eq_zipIdx,
    List.flatMap_map, List.map_flatMap]
  simp only [Prod.map, List.map_map, Function.comp_def, id]

theorem readWord_later (word : List Char × Nat) (n : Nat) :
    readWord (Prod.map id (· + n) word) = (readWord word).mapError (·.later n) := by
  obtain ⟨word, number⟩ := word
  simp only [readWord, Prod.map, id]
  cases Instruction.ofWord word <;> rfl

/-- What is read `n` lines further down has its faults there. -/
theorem mapM_readWord_later (number n : Nat) (source : List Char) :
    (numberedWords (number + n) source).mapM readWord =
      ((numberedWords number source).mapM readWord).mapError (·.later n) := by
  rw [numberedWords_later, List.mapM_map, ← mapM_mapError]
  simp only [Function.comp_def, readWord_later]

theorem parse_append (first second : List Char) :
    parse (first ++ '\n' :: second) = do
      let before ← parse first
      let after ← (parse second).mapError (·.later (first.count '\n' + 1))
      return before ++ after := by
  rw [parse_eq, numberedWords_joined, List.mapM_append, ← parse_eq, mapM_readWord_later,
    ← parse_eq]

/-- Texts joined by a line feed are read one after the other. The first one fails as it fails alone;
if it does not, the second one gives its instructions or its error, with the line counted from the
start of the joined text. -/
theorem parse_joined (first second : ByteArray) :
    parse (characters (first ++ "\n".toUTF8 ++ second)) =
      match parse (characters first), parse (characters second) with
      | .error e, _ => .error e
      | .ok before, .ok after => .ok (before ++ after)
      | .ok _, .error e => .error (e.later (1 + first.data.toList.count 10)) := by
  have feed : characters "\n".toUTF8 = ['\n'] := rfl
  have feeds : (characters first).count '\n' = first.data.toList.count 10 :=
    count_characters 10 first
  rw [characters_append, characters_append, feed, List.append_assoc, List.singleton_append,
    parse_append, feeds, Nat.add_comm 1]
  cases parse (characters first) with
  | error e => rfl
  | ok before => cases parse (characters second) <;> rfl

end HackToolchain.Assembly
