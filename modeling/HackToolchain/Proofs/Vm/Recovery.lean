import HackToolchain.Proofs.Vm.Grammar
import HackToolchain.Vm.Command.Cursor

/-! Errors stay on their line. A command uses up tokens of its own line only, and what is passed over
after an error holds no keyword. So whatever stands on other lines, reading comes to every line that
starts with a keyword, and reads the command there if there is one. -/
namespace HackToolchain.Vm

theorem Written.not_erroneous {line : Nat} {used : List Token} {c : Command}
    (written : Written line used c) : c.kind ≠ .erroneous := by
  cases written with
  | arithmetic op => exact nofun
  | «return» => exact nofun
  | named one symbol =>
    rintro rfl
    contradiction
  | moved moves value =>
    rintro rfl
    simp at moves
  | counted counts symbol value =>
    rintro rfl
    simp at counts

theorem Written.isKeyword {line : Nat} {used : List Token} {c : Command}
    (written : Written line used c) : ∃ token rest, used = token :: rest ∧ token.isKeyword := by
  have keyed (kind : CommandKind) (member : kind ∈ CommandKind.withKeyword) :
      (Token.word line kind.name).isKeyword := by
    simp [Token.isKeyword, CommandKind.ofKeyword?_name member]
  cases written with
  | arithmetic op =>
    refine ⟨_, [], rfl, ?_⟩
    simp [Token.isKeyword, CommandKind.ofKeyword?_operator]
  | «return» => exact ⟨_, [], rfl, keyed .return (by decide)⟩
  | @named kind name one symbol =>
    refine ⟨_, _, rfl, keyed _ ?_⟩
    cases kind with
    | label | goto | ifGoto => decide
    | _ => contradiction
  | moved moves value => exact ⟨_, _, rfl, keyed _ (by rcases moves with rfl | rfl <;> decide)⟩
  | counted counts symbol value =>
    exact ⟨_, _, rfl, keyed _ (by rcases counts with rfl | rfl <;> decide)⟩

namespace TokenStream

/-- Recovery stops in front of a keyword or at the end of input. -/
theorem recover_head (s : TokenStream) : ∀ token ∈ s.recover.tokens.head?, token.isKeyword := by
  intro token first
  have stopped := stop_dropWhile _ s.tokens token first
  simpa using stopped

/-- What one reading does: it uses up the first token and others of its line, and only after an error
passes over tokens, none of them a keyword, to a keyword or the end. -/
theorem exists_read (token : Token) (tokens : List Token) (endLine : Nat) :
    ∃ used passed left, tokens = used ++ passed ++ left ∧
      (read ⟨token :: tokens, endLine⟩).2 = ⟨left, endLine⟩ ∧
      (∀ other ∈ used, other.line = token.line) ∧ (∀ other ∈ passed, other.isKeyword = false) ∧
      ((read ⟨token :: tokens, endLine⟩).1.error?.isSome → ∀ next ∈ left.head?, next.isKeyword) := by
  obtain ⟨used, split, here⟩ := CommandReader.exists_used ⟨token :: tokens, endLine⟩
  obtain ⟨after, left⟩ : ∃ after,
      CommandReader.command.rest ⟨token :: tokens, endLine⟩ = ⟨after, endLine⟩ :=
    ⟨_, congrArg (TokenStream.mk _) (TokenStream.mk.inj split).2.symm⟩
  replace split : tokens = used ++ after := by
    rw [left] at split
    exact (TokenStream.mk.inj split).1
  rw [CommandReader.rest] at left
  simp only [read]
  cases result : CommandReader.command ⟨token :: tokens, endLine⟩ with
  | ok c rest =>
    obtain rfl : rest = ⟨after, endLine⟩ := by simpa only [result] using left
    exact ⟨used, [], after, by simpa using split, rfl, here, by simp, by simp [Reading.error?]⟩
  | error e rest =>
    obtain rfl : rest = ⟨after, endLine⟩ := by simpa only [result] using left
    refine ⟨used, after.takeWhile (!·.isKeyword), after.dropWhile (!·.isKeyword), ?_, rfl, here, ?_,
      fun _ => recover_head ⟨after, endLine⟩⟩
    · rw [split, List.append_assoc, List.takeWhile_append_dropWhile]
    · intro other member
      simpa using List.mem_takeWhile_imp member

theorem read_nil (endLine : Nat) :
    read ⟨[], endLine⟩ = (⟨endLine, .error (.unknown endLine "")⟩, ⟨[], endLine⟩) :=
  rfl

theorem read_result {s : TokenStream} {c : Command} (result : s.read.1.result = .ok c) :
    c.kind ≠ .erroneous := by
  obtain ⟨line, used, written, _⟩ := exists_written result
  exact written.not_erroneous

variable {s : TokenStream}

theorem stream_cursor_succ (s : TokenStream) (n : Nat) :
    (s.cursor (n + 1)).stream = (s.read.2.cursor n).stream := by
  induction n with
  | zero => rfl
  | succ n ih => exact congrArg (fun stream => (read stream).2) ih

/-- What is left after advances is an end of what there was. -/
theorem exists_stream_cursor (s : TokenStream) (n : Nat) :
    ∃ left, (s.cursor n).stream = ⟨left, s.endLine⟩ ∧ left <:+ s.tokens := by
  induction n with
  | zero => exact ⟨s.tokens, rfl, List.suffix_rfl⟩
  | succ n ih =>
    obtain ⟨left, here, suffix⟩ := ih
    change ∃ left, (s.cursor n).stream.read.2 = _ ∧ _
    rw [here]
    cases left with
    | nil => exact ⟨[], rfl, List.nil_suffix⟩
    | cons token tokens =>
      obtain ⟨used, passed, after, split, next, _⟩ := exists_read token tokens s.endLine
      refine ⟨after, next, List.IsSuffix.trans ⟨token :: (used ++ passed), ?_⟩ suffix⟩
      rw [split, List.cons_append]

/-- The readings of a unit are what is read by the advances before the end of input. -/
theorem getElem?_readings (s : TokenStream) (n : Nat) :
    s.readings[n]? =
      if (s.cursor n).stream.tokens = [] then none else some (s.cursor n).stream.read.1 := by
  by_cases none : s.tokens = []
  · obtain ⟨tokens, endLine⟩ := s
    obtain rfl : tokens = [] := none
    obtain ⟨left, here, suffix⟩ := exists_stream_cursor ⟨[], endLine⟩ n
    rw [readings_nil, here, List.suffix_nil.mp suffix]
    rfl
  · rw [readings_cons none]
    cases n with
    | zero => exact (if_neg none).symm
    | succ n =>
      have shorter := read_length_lt s none
      rw [List.getElem?_cons_succ, getElem?_readings s.read.2 n, stream_cursor_succ]
termination_by s.tokens.length

theorem length_readings_le (s : TokenStream) : s.readings.length ≤ s.tokens.length := by
  by_cases none : s.tokens = []
  · obtain ⟨tokens, endLine⟩ := s
    obtain rfl : tokens = [] := none
    rw [readings_nil]
    exact Nat.zero_le _
  · have shorter := read_length_lt s none
    have later := length_readings_le s.read.2
    rw [readings_cons none, List.length_cons]
    omega
termination_by s.tokens.length

/-- The readings are over where no token is left. -/
theorem lt_length_readings_iff (s : TokenStream) (n : Nat) :
    n < s.readings.length ↔ (s.cursor n).stream.tokens ≠ [] := by
  have reading := s.getElem?_readings n
  rw [← Nat.not_le, ← List.getElem?_eq_none_iff, reading]
  simp

theorem exists_advance {n : Nat} (some : (s.cursor n).stream.tokens ≠ []) :
    ∃ used, used ≠ [] ∧
      (s.cursor n).stream.tokens = used ++ (s.cursor (n + 1)).stream.tokens := by
  obtain ⟨token, tokens, start⟩ := List.exists_cons_of_ne_nil some
  obtain ⟨used, rest⟩ := read_suffix (s.cursor n).stream
  refine ⟨token :: used, List.cons_ne_nil _ _, ?_⟩
  rw [start, List.tail_cons] at rest
  rw [start, ← rest]
  rfl

/-- At the end of input nothing changes any more. -/
theorem advance_end {n : Nat} (none : (s.cursor n).stream.tokens = []) :
    s.cursor (n + 1) =
      ⟨(s.cursor n).stream, some ⟨s.endLine, .error (.unknown s.endLine "")⟩⟩ := by
  obtain ⟨left, here, _⟩ := s.exists_stream_cursor n
  rw [here] at none
  obtain rfl : left = [] := none
  rw [cursor, Cursor.advance, here, read_nil]

/-- After an error a keyword comes next, or nothing. -/
theorem resumed {n : Nat} (failed : (s.cursor n).error?.isSome) :
    ∀ token ∈ (s.cursor n).stream.tokens.head?, token.isKeyword := by
  cases n with
  | zero => contradiction
  | succ n =>
    obtain ⟨left, here, _⟩ := s.exists_stream_cursor n
    cases left with
    | nil =>
      rw [advance_end (congrArg tokens here), here]
      exact nofun
    | cons token tokens =>
      obtain ⟨used, passed, left, _, next, _, _, stops⟩ := exists_read token tokens s.endLine
      rw [cursor, Cursor.advance, here] at failed ⊢
      rw [next]
      exact stops failed

/-- No reading goes past a keyword that starts a line: its own line is another one, and what it
passes over holds no keyword. -/
theorem exists_cursor {before rest : List Token} {token : Token} {m endLine : Nat}
    (here : (s.cursor m).stream = ⟨before ++ token :: rest, endLine⟩)
    (first : ∀ other ∈ before, other.line ≠ token.line) (keyword : token.isKeyword) :
    ∃ n, (s.cursor n).stream = ⟨token :: rest, endLine⟩ := by
  induction size : before.length using Nat.strongRecOn generalizing before m with
  | ind size ih =>
    cases before with
    | nil => exact ⟨m, here⟩
    | cons start others =>
      obtain ⟨apart, first⟩ := List.forall_mem_cons.mp first
      obtain ⟨used, passed, left, split, next, onLine, unkeyed, _⟩ :=
        exists_read start (others ++ token :: rest) endLine
      have reached : (s.cursor (m + 1)).stream = ⟨left, endLine⟩ := by
        rw [← next, ← List.cons_append, ← here]
        rfl
      have kept : token ∉ used ++ passed := by
        rw [List.mem_append, not_or]
        refine ⟨fun member => apart (onLine token member).symm, fun member => ?_⟩
        rw [unkeyed token member] at keyword
        contradiction
      obtain ⟨between, rfl, shorter⟩ : ∃ between, left = between ++ token :: rest ∧
          between <:+ others := by
        rcases List.append_eq_append_iff.mp split with ⟨more, whole, end'⟩ | ⟨more, whole, end'⟩
        · cases more with
          | nil => exact ⟨[], end'.symm, List.nil_suffix⟩
          | cons other more =>
            obtain ⟨rfl, _⟩ := List.cons.inj end'
            simp [whole] at kept
        · exact ⟨more, end', used ++ passed, whole.symm⟩
      refine ih between.length ?_ reached (fun other member => first other (shorter.mem member)) rfl
      rw [← size, List.length_cons]
      exact Nat.lt_succ_of_le shorter.length_le

end TokenStream

/-- The tokens of a line stand behind those of the lines before it. -/
theorem exists_split_line {lines : List (List Char)} {k : Nat} {parts : List (List Token)}
    (cut : List.Forall₂ (fun line part => lineTokens line.1 line.2 = .ok part) (lines.zipIdx k) parts)
    {text : List Char} {number : Nat} (member : (text, number) ∈ lines.zipIdx k)
    {tokens : List Token} (here : lineTokens text number = .ok tokens) :
    ∃ before after, parts.flatten = before ++ (tokens ++ after) ∧
      ∀ token ∈ before, token.line < number := by
  induction lines generalizing k parts with
  | nil => contradiction
  | cons line rest ih =>
    rw [List.zipIdx_cons, List.forall₂_cons_left_iff] at cut
    obtain ⟨part, others, first, later, rfl⟩ := cut
    rw [List.zipIdx_cons, List.mem_cons] at member
    rcases member with same | member
    · obtain ⟨rfl, rfl⟩ := Prod.mk.inj same
      obtain rfl := Except.ok.inj (first.symm.trans here)
      exact ⟨[], others.flatten, rfl, nofun⟩
    · obtain ⟨before, after, split, earlier⟩ := ih later member
      have below : k + 1 ≤ number := List.le_snd_of_mem_zipIdx member
      refine ⟨part ++ before, after, ?_, List.forall_mem_append.mpr ⟨?_, earlier⟩⟩
      · rw [List.flatten_cons, split, List.append_assoc]
      · intro token there
        rw [(cutFrom_lineTokens first token there).line]
        exact below

section Tokenized
variable {source : String} {s : TokenStream} (tokenized : tokenize source = .ok s)
include tokenized

theorem hasMore_cursor (n : Nat) : (s.cursor n).hasMore ↔ (s.cursor n).stream.tokens ≠ [] := by
  obtain ⟨left, here, suffix⟩ := s.exists_stream_cursor n
  rw [Cursor.hasMore, here]
  cases left with
  | nil => simp [TokenStream.peek]
  | cons token tokens =>
    obtain ⟨_, cut⟩ := cutFrom_tokenize tokenized token (suffix.mem List.mem_cons_self)
    simpa [TokenStream.peek] using cut.kind

/-- Reading comes to every line that starts with a keyword. -/
theorem exists_cursor_line {text : List Char} {number : Nat} {token : Token} {rest : List Token}
    (line : (text, number) ∈ Text.numberedLines source.toList)
    (cut : lineTokens text number = .ok (token :: rest)) (keyword : token.isKeyword) :
    ∃ n < s.readings.length, ∃ later, (s.cursor n).stream = ⟨token :: rest ++ later, s.endLine⟩ := by
  obtain ⟨parts, lines, rfl⟩ := tokenize_eq_ok.mp tokenized
  obtain ⟨before, later, split, earlier⟩ := exists_split_line lines line cut
  have onLine : token.line = number := (cutFrom_lineTokens cut token List.mem_cons_self).line
  have first : ∀ other ∈ before, other.line ≠ token.line := by
    intro other member
    rw [onLine]
    exact Nat.ne_of_lt (earlier other member)
  obtain ⟨n, here⟩ := TokenStream.exists_cursor (m := 0) (congrArg (TokenStream.mk · _) split) first
    keyword
  exact ⟨n, (TokenStream.lt_length_readings_iff _ n).mpr (by simp [here]), later, here⟩

/-- A line that is one command is read as this command. -/
theorem exists_cursor_written {text : List Char} {number : Nat} {used : List Token} {c : Command}
    (line : (text, number) ∈ Text.numberedLines source.toList)
    (cut : lineTokens text number = .ok used) (written : Written number used c) :
    ∃ n < s.readings.length, (s.cursor (n + 1)).last? = some ⟨number, .ok c⟩ := by
  obtain ⟨token, rest, rfl, keyword⟩ := written.isKeyword
  obtain ⟨n, within, later, here⟩ := exists_cursor_line tokenized line cut keyword
  have onLine : token.line = number := (cutFrom_lineTokens cut token List.mem_cons_self).line
  refine ⟨n, within, congrArg some ?_⟩
  rw [here, TokenStream.read, CommandReader.command_of_written written]
  exact congrArg (Reading.mk · (.ok c)) onLine

end Tokenized

theorem Cursor.error?_isSome_iff {s : TokenStream} (n : Nat) :
    (s.cursor n).error?.isSome ↔ (s.cursor n).command.kind = .erroneous ∧ 0 < n := by
  cases n with
  | zero => simp [TokenStream.cursor, Cursor.error?]
  | succ n =>
    simp only [TokenStream.cursor, Cursor.advance, Cursor.error?, Cursor.command, Option.bind_some,
      Option.elim_some, Reading.error?, Reading.command, Nat.zero_lt_succ, and_true]
    cases result : (s.cursor n).stream.read.1.result with
    | error e => simp [Command.erroneous]
    | ok c => simpa using TokenStream.read_result result

/-- Errors stay on their line, wherever a unit is malformed and however often it is advanced: an advance
uses a token up, and a line that starts with a keyword is come to. -/
theorem errors_local {source : String} {s : TokenStream} (tokenized : tokenize source = .ok s) :
    (∀ n, (s.cursor n).hasMore → ∃ used, used ≠ [] ∧
      (s.cursor n).stream.tokens = used ++ (s.cursor (n + 1)).stream.tokens) ∧
    (s.readings.length ≤ s.tokens.length ∧ (s.cursor s.readings.length).hasMore = false ∧
      ∀ n < s.readings.length, (s.cursor n).hasMore ∧
        (s.cursor (n + 1)).last? = s.readings[n]?) ∧
    (∀ n, (s.cursor n).error?.isSome ↔ (s.cursor n).command.kind = .erroneous ∧ 0 < n) ∧
    (∀ n, (s.cursor n).error?.isSome →
      (s.cursor n).stream.peek.isKeyword ∨ (s.cursor n).stream.peek.kind = .endOfInput) ∧
    (∀ text number token rest, (text, number) ∈ Text.numberedLines source.toList →
      lineTokens text number = .ok (token :: rest) → token.isKeyword →
      ∃ n < s.readings.length, ∃ later, (s.cursor n).stream.tokens = token :: rest ++ later) ∧
    (∀ text number used c, (text, number) ∈ Text.numberedLines source.toList →
      lineTokens text number = .ok used → Written number used c →
      ∃ n < s.readings.length, (s.cursor (n + 1)).last? = some ⟨number, .ok c⟩) ∧
    ∀ n, (s.cursor n).hasMore = false →
      (s.cursor (n + 1)).stream = (s.cursor n).stream ∧
      (s.cursor (n + 1)).error? = some (.unknown s.endLine "") := by
  have more (n : Nat) := hasMore_cursor tokenized n
  refine ⟨fun n some => TokenStream.exists_advance ((more n).mp some),
    ⟨s.length_readings_le, ?_, fun n within => ?_⟩, Cursor.error?_isSome_iff, fun n failed => ?_,
    fun text number token rest line cut keyword => ?_,
    fun text number used c line cut written => exists_cursor_written tokenized line cut written,
    fun n none => ?_⟩
  · have ended := (s.lt_length_readings_iff s.readings.length).not.mp (Nat.lt_irrefl _)
    rwa [← more, Bool.not_eq_true] at ended
  · have some := (s.lt_length_readings_iff n).mp within
    rw [s.getElem?_readings, if_neg some]
    exact ⟨(more n).mpr some, rfl⟩
  · have resumes := TokenStream.resumed failed
    rw [TokenStream.peek]
    cases left : (s.cursor n).stream.tokens with
    | nil => exact .inr rfl
    | cons token rest =>
      rw [left] at resumes
      exact .inl (resumes token rfl)
  · obtain ⟨n, within, later, here⟩ := exists_cursor_line tokenized line cut keyword
    exact ⟨n, within, later, congrArg TokenStream.tokens here⟩
  · have spent : (s.cursor n).stream.tokens = [] := by
      by_contra some
      rw [(more n).mpr some] at none
      contradiction
    rw [TokenStream.advance_end spent]
    exact ⟨rfl, rfl⟩

/-- The source is malformed on its first, third and fourth line, in such a way that a keyword is left
over each time. -/
theorem errors_local_garbled :
    let source := "push push // add\nlabel add\n7 x-y goto\npush local pop\nneg"
    ∃ s, tokenize source = .ok s ∧ ∃ n < s.readings.length,
      (s.cursor (n + 1)).last? = some ⟨2, .ok ⟨.label, some "add", none⟩⟩ := by
  intro source
  have tokenized : tokenize source = .ok ⟨[.word 1 "push", .word 1 "push", .word 2 "label",
      .word 2 "add", .digits 3 "7", .word 3 "x-y", .word 3 "goto", .word 4 "push",
      .word 4 "local", .word 4 "pop", .word 5 "neg"], 5⟩ := by decide +kernel
  obtain ⟨_, _, _, _, _, filled, _⟩ := errors_local tokenized
  refine ⟨_, tokenized, filled "label add".toList 2 [.word 2 "label", .word 2 "add"] _ ?_ ?_ ?_⟩
  · decide +kernel
  · decide +kernel
  · exact @Written.named 2 .label "add" rfl (by decide)

end HackToolchain.Vm
