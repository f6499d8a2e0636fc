import HackToolchain.Proofs.Vm.Bytes
import HackToolchain.Proofs.Vm.Joining

/-! The character that a text cannot be read past. Every text is lexemes with gaps around them, up to
its end or up to a character that no token, gap or comment takes: the text is rejected on the line of
that character, and what stands before it could have been read. -/
namespace HackToolchain.Vm

open Assembly (IsGap isWordChar)

/-- A character that cannot be read behind these lexemes and the gap after them. -/
structure Blocks (pieces : List Piece) (gap : List Char) (c : Char) (after : List Char) : Prop where
  isGap : IsGap gap
  apart : gap = [] → ∀ piece ∈ pieces.getLast?, continues piece.kind c = false
  stray : Stray c after

/-- Lexemes and gaps are a whole text, or all of it before a character that cannot be read. -/
inductive Splits : List Char → Prop where
  | whole {pieces : List Piece} {last : List Char} (separated : Separated pieces last) :
    Splits (written pieces last)
  | blocked {pieces : List Piece} {gap after : List Char} {c : Char}
    (separated : Separated pieces gap) (blocks : Blocks pieces gap c after) :
    Splits (written pieces gap ++ c :: after)

/-- Two lexemes that touch and do not run into each other are a number and an identifier. -/
theorem IsLexeme.touching {kind next : Token.Kind} {text later : List Char}
    (lexeme : IsLexeme kind text) (follower : IsLexeme next later)
    (stop : ∀ c ∈ later.head?, continues kind c = false) : kind = .number ∧ next = .identifier := by
  cases follower with
  | identifier identifier =>
    obtain ⟨first, others, rfl, start, _⟩ := identifier
    cases lexeme with
    | identifier _ => simpa [continues, isIdentifierRest, start] using stop first rfl
    | number _ _ => exact ⟨rfl, rfl⟩
  | number some digits =>
    obtain ⟨first, others, rfl⟩ := List.exists_cons_of_ne_nil some
    have digit := digits first List.mem_cons_self
    cases lexeme with
    | identifier _ => simpa [continues, isIdentifierRest, digit] using stop first rfl
    | number _ _ => simpa [continues, digit] using stop first rfl

section Pieces

variable {piece : Piece} {pieces : List Piece} {last gap after : List Char} {c : Char}

theorem Separated.cons (separated : Separated pieces last) (isGap : IsGap piece.gap)
    (lexeme : IsLexeme piece.kind piece.text)
    (stop : ∀ c ∈ (written pieces last).head?, continues piece.kind c = false) :
    Separated (piece :: pieces) last := by
  obtain ⟨gaps, lexemes, apart, isLast⟩ := separated
  refine ⟨List.forall_mem_cons.mpr ⟨isGap, gaps⟩, List.forall_mem_cons.mpr ⟨lexeme, lexemes⟩,
    apart.cons ?_, isLast⟩
  intro next first
  obtain ⟨rest, rfl⟩ := List.head?_eq_some_iff.mp first
  by_cases touch : next.gap = []
  · have start : next.text <+: written (next :: rest) last := by
      rw [written, touch, List.nil_append]
      exact List.prefix_append _ _
    exact .inr (lexeme.touching (lexemes next List.mem_cons_self)
      fun c head => stop c (head?_of_start start head))
  · exact .inl touch

theorem Blocks.cons (blocks : Blocks pieces gap c after)
    (stop : ∀ d ∈ (written pieces gap ++ c :: after).head?, continues piece.kind d = false) :
    Blocks (piece :: pieces) gap c after := by
  refine ⟨blocks.isGap, fun none => ?_, blocks.stray⟩
  cases pieces with
  | nil =>
    rintro _ ⟨⟩
    subst none
    exact stop c rfl
  | cons next rest =>
    rw [List.getLast?_cons_cons]
    exact blocks.apart none

theorem Blocks.tail (blocks : Blocks (piece :: pieces) gap c after) : Blocks pieces gap c after := by
  refine ⟨blocks.isGap, fun none other member => ?_, blocks.stray⟩
  apply blocks.apart none other
  cases pieces with
  | nil => contradiction
  | cons next rest => rwa [List.getLast?_cons_cons]

theorem written_eq_nil (separated : Separated pieces last) (none : written pieces last = []) :
    pieces = [] ∧ last = [] := by
  cases pieces with
  | nil => exact ⟨rfl, none⟩
  | cons piece rest =>
    simp only [written, List.append_eq_nil_iff] at none
    exact absurd none.1.2 (separated.lexemes piece List.mem_cons_self).ne_nil

/-- Nothing behind a lexeme continues it, up to a character that cannot be read. -/
theorem Blocks.stop (blocks : Blocks (piece :: pieces) gap c after)
    (separated : Separated (piece :: pieces) gap) :
    ∀ d ∈ (written pieces gap ++ c :: after).head?, continues piece.kind d = false := by
  intro d first
  rw [List.head?_append] at first
  cases start : (written pieces gap).head? with
  | some other =>
    rw [start] at first
    exact separated.stop d (start.trans first)
  | none =>
    obtain ⟨rfl, rfl⟩ := written_eq_nil separated.tail (List.head?_eq_none_iff.mp start)
    rw [start] at first
    obtain rfl : c = d := Option.some.inj first
    exact blocks.apart rfl piece rfl

end Pieces

/-- What can stand in front of a text without being part of a lexeme of it: a gap, or one with a
comment behind it whose end is the first line feed of the text. -/
inductive Leads : List Char → List Char → Prop where
  | gap {gap source : List Char} (isGap : IsGap gap) : Leads gap source
  | comment {gap text source : List Char} (isGap : IsGap gap) (whole : '\n' ∉ text)
    (stop : ∀ c ∈ source.head?, c = '\n') : Leads (gap ++ '/' :: '/' :: text) source

namespace Leads

variable {start source rest : List Char} {c : Char}

theorem isLastGap (leads : Leads start source) : IsLastGap start := by
  cases leads with
  | gap isGap => exact .ended isGap
  | comment isGap whole _ => exact .comment isGap whole

theorem isGap (leads : Leads start source) (first : c ∈ source.head?) (inline : c ≠ '\n') :
    IsGap start := by
  cases leads with
  | gap isGap => exact isGap
  | comment _ _ stop => exact absurd (stop c first) inline

theorem blank (leads : Leads start (c :: rest)) (separates : Text.isBlank c) :
    Leads (start ++ [c]) rest := by
  cases leads with
  | gap isGap => exact .gap (isGap.append (.blank separates .nil))
  | @comment gap text _ isGap whole stop =>
    obtain rfl : c = '\n' := stop c rfl
    rw [List.append_assoc]
    exact .gap (isGap.append (.comment whole .nil))

end Leads

theorem Splits.cons {gap text source : List Char} {kind : Token.Kind} (isGap : IsGap gap)
    (lexeme : IsLexeme kind text) (stop : ∀ c ∈ source.head?, continues kind c = false)
    (splits : Splits source) : Splits (gap ++ text ++ source) := by
  cases splits with
  | @whole pieces last separated =>
    have longer : Separated (⟨gap, kind, text⟩ :: pieces) last := separated.cons isGap lexeme stop
    exact .whole longer
  | @blocked pieces last after c separated blocks =>
    have first : ∀ d ∈ (written pieces last).head?, continues kind d = false :=
      fun d head => stop d (head?_of_start (List.prefix_append _ _) head)
    have longer : Separated (⟨gap, kind, text⟩ :: pieces) last := separated.cons isGap lexeme first
    have split := Splits.blocked longer (blocks.cons stop)
    rwa [written, List.append_assoc] at split

/-- The text is split behind all that leads it, so that a gap grows until a lexeme ends it. -/
theorem splits_behind {start source : List Char} (leads : Leads start source) :
    Splits (start ++ source) := by
  induction source using lexeme_induction generalizing start with
  | nil =>
    have none : Separated [] start := ⟨nofun, nofun, .nil, leads.isLastGap⟩
    rw [List.append_nil]
    exact .whole none
  | blank c rest separates ih =>
    have split := ih (leads.blank separates)
    rwa [List.append_assoc] at split
  | comment text ih =>
    have isGap := leads.isGap rfl (by decide)
    have split := ih (.comment isGap (not_mem_firstLine text) (feed_of_firstLine text))
    rwa [List.append_assoc, List.cons_append, List.cons_append, List.takeWhile_append_dropWhile]
      at split
  | lexeme kind text rest lexeme stop ih =>
    obtain ⟨first, others, rfl⟩ := List.exists_cons_of_ne_nil lexeme.ne_nil
    have inline : first ≠ '\n' := by
      rintro rfl
      exact lexeme.inline List.mem_cons_self
    have split := ih (.gap .nil)
    rw [← List.append_assoc]
    exact split.cons (leads.isGap rfl inline) lexeme stop
  | stray c rest stray =>
    have inline : c ≠ '\n' := by
      rintro rfl
      exact absurd stray.unblank (by decide)
    have none : Separated [] start := ⟨nofun, nofun, .nil, leads.isLastGap⟩
    exact .blocked none ⟨leads.isGap rfl inline, nofun, stray⟩

theorem splits (source : List Char) : Splits source :=
  splits_behind (.gap .nil : Leads [] source)

theorem textTokens_blocked {pieces : List Piece} {gap after : List Char} {c : Char}
    (separated : Separated pieces gap) (blocks : Blocks pieces gap c after) (n : Nat) :
    textTokens n (written pieces gap ++ c :: after) =
      .error ⟨n + (written pieces gap).count '\n', c⟩ := by
  induction pieces generalizing n with
  | nil => rw [written, textTokens_gap blocks.isGap, textTokens_stray blocks.stray]
  | cons piece rest ih =>
    have isGap := separated.gaps piece List.mem_cons_self
    have lexeme := separated.lexemes piece List.mem_cons_self
    have inline := List.count_eq_zero.mpr lexeme.inline
    rw [written, List.append_assoc, List.append_assoc, textTokens_gap isGap,
      lexeme.read (blocks.stop separated), ih separated.tail blocks.tail]
    simp only [List.count_append, inline, Nat.add_zero, ← Nat.add_assoc]
    rfl

theorem tokenize_blocked {pieces : List Piece} {gap after : List Char} {c : Char} {source : String}
    (separated : Separated pieces gap) (blocks : Blocks pieces gap c after)
    (text : source.toList = written pieces gap ++ c :: after) :
    tokenize source = .error ⟨1 + (written pieces gap).count '\n', c⟩ := by
  rw [tokenize_eq, text, textTokens_blocked separated blocks]
  rfl

theorem map_tokensBehind (before : List Char) (pieces : List Piece) (last : List Char) :
    (tokensBehind before pieces last).map (fun token => (token.kind, token.text)) =
      pieces.map (fun piece => (piece.kind, String.ofList piece.text)) ++
        [(.endOfInput, "")] := by
  induction pieces generalizing before with
  | nil => rfl
  | cons piece rest ih => rw [tokensBehind, List.map_cons, ih, List.map_cons, List.cons_append]

theorem tokenize_separated {pieces : List Piece} {last : List Char} {source : String}
    (separated : Separated pieces last) (text : source.toList = written pieces last) :
    ∃ s, tokenize source = .ok s ∧ s.tokens.map (fun token => (token.kind, token.text)) =
      pieces.map fun piece => (piece.kind, String.ofList piece.text) := by
  obtain ⟨tokens, read, same⟩ := textTokens_written separated []
  refine ⟨⟨tokens, source.toList.count '\n' + 1⟩, ?_, ?_⟩
  · rw [tokenize_eq, text]
    exact congrArg (Except.map _) read
  · have kinds := map_tokensBehind [] pieces last
    rw [← same, List.map_append] at kinds
    exact List.append_cancel_right kinds

/-- Two slashes open a comment, which goes on to the end of its line. -/
def InComment (before : List Char) : Prop :=
  ∃ start text, before = start ++ '/' :: '/' :: text ∧ '\n' ∉ text

theorem InComment.of_bare {start rest : List Char} (bare : '/' ∉ start)
    (inside : InComment (start ++ rest)) : InComment rest := by
  obtain ⟨before, text, split, whole⟩ := inside
  rcases List.append_eq_append_iff.mp split with ⟨between, _, behind⟩ | ⟨_ | ⟨c, between⟩, front, behind⟩
  · exact ⟨between, text, behind, whole⟩
  · exact ⟨[], text, behind.symm, whole⟩
  · obtain ⟨rfl, _⟩ := List.cons.inj behind
    exact absurd (front ▸ List.mem_append_right _ List.mem_cons_self) bare

theorem InComment.of_feed {start rest : List Char} (inside : InComment (start ++ '\n' :: rest)) :
    InComment rest := by
  obtain ⟨before, text, split, whole⟩ := inside
  rcases List.append_eq_append_iff.mp split with ⟨_ | ⟨c, between⟩, _, behind⟩ | ⟨between, _, behind⟩
  · exact absurd (List.cons.inj behind).1 (by decide)
  · exact ⟨between, text, (List.cons.inj behind).2, whole⟩
  · have feed : '\n' ∈ '/' :: '/' :: text := behind ▸ by simp
    simp [whole] at feed

theorem InComment.of_gap {gap rest : List Char} (isGap : IsGap gap)
    (inside : InComment (gap ++ rest)) : InComment rest := by
  induction isGap with
  | nil => exact inside
  | @blank c gap separates _ ih =>
    apply ih
    have bare : '/' ∉ [c] := by
      rw [List.mem_singleton]
      rintro rfl
      contradiction
    exact InComment.of_bare bare inside
  | comment _ _ ih =>
    rw [List.append_assoc] at inside
    exact ih inside.of_feed

/-- Comments among lexemes end with their lines. -/
theorem outside_written {pieces : List Piece} {gap : List Char} (separated : Separated pieces gap)
    (isGap : IsGap gap) : ¬ InComment (written pieces gap) := by
  induction pieces with
  | nil =>
    intro inside
    rw [written, ← List.append_nil gap] at inside
    obtain ⟨start, text, none, _⟩ := inside.of_gap isGap
    simp at none
  | cons piece rest ih =>
    intro inside
    have lexeme := separated.lexemes piece List.mem_cons_self
    have bare : '/' ∉ piece.text := by
      intro slash
      exact absurd (isWordChar_of_continues (lexeme.all _ slash)) (by decide)
    rw [written, List.append_assoc] at inside
    exact ih separated.tail
      (InComment.of_bare bare (inside.of_gap (separated.gaps piece List.mem_cons_self)))

/-- The last token reaches to the end of the text and would take `c`, too. -/
def Continues (before : List Char) (c : Char) : Prop :=
  ∃ s token, tokenize (String.ofList before) = .ok s ∧ token ∈ s.tokens.getLast? ∧
    token.text.toList <:+ before ∧ continues token.kind c

theorem blank_of_getLast? {gap : List Char} (isGap : IsGap gap) :
    ∀ c ∈ gap.getLast?, Text.isBlank c := by
  have behind {c : Char} {rest : List Char} (separates : Text.isBlank c)
      (ih : ∀ d ∈ rest.getLast?, Text.isBlank d) : ∀ d ∈ (c :: rest).getLast?, Text.isBlank d := by
    rw [List.getLast?_cons]
    rintro _ ⟨⟩
    cases last : rest.getLast? with
    | none => exact separates
    | some d => exact ih d last
  induction isGap with
  | nil => exact nofun
  | blank separates _ ih => exact behind separates ih
  | comment _ _ ih =>
    rw [List.getLast?_append_cons]
    exact behind (by decide) ih

theorem written_append (first second : List Piece) (last : List Char) :
    written (first ++ second) last = written first (written second last) := by
  induction first with
  | nil => rfl
  | cons piece rest ih => rw [List.cons_append, written, written, ih]

theorem written_suffix (pieces : List Piece) (last : List Char) : last <:+ written pieces last := by
  induction pieces with
  | nil => exact List.suffix_refl _
  | cons piece rest ih => exact ih.trans (List.suffix_append _ _)

/-- A token reaches to the end if no gap stands behind its lexeme. -/
theorem continues_written {pieces : List Piece} {gap : List Char} {c : Char}
    (separated : Separated pieces gap) (isGap : IsGap gap) :
    Continues (written pieces gap) c ↔
      gap = [] ∧ ∃ piece ∈ pieces.getLast?, continues piece.kind c := by
  obtain ⟨s, read, same⟩ := tokenize_separated separated String.toList_ofList
  have last := congrArg List.getLast? same
  rw [List.getLast?_map, List.getLast?_map] at last
  constructor
  · rintro ⟨s', token, read', member, ends, more⟩
    obtain rfl := Except.ok.inj (read.symm.trans read')
    rw [Option.mem_def.mp member, Option.map_some] at last
    obtain ⟨piece, member, lexeme⟩ := Option.map_eq_some_iff.mp last.symm
    obtain ⟨kind, text⟩ := Prod.mk.inj lexeme
    rw [← kind] at more
    rw [← text, String.toList_ofList] at ends
    refine ⟨?_, piece, member, more⟩
    by_contra some
    have lexeme := separated.lexemes piece (List.mem_of_mem_getLast? member)
    have final : gap.getLast some = piece.text.getLast lexeme.ne_nil :=
      ((written_suffix pieces gap).getLast some).trans (ends.getLast lexeme.ne_nil).symm
    have blank := blank_of_getLast? isGap _ (List.getLast?_eq_some_getLast some)
    have word := isWordChar_of_continues (lexeme.all _ (List.getLast_mem lexeme.ne_nil))
    rw [← final, isWordChar, blank] at word
    contradiction
  · rintro ⟨rfl, piece, member, more⟩
    rw [Option.mem_def.mp member, Option.map_some] at last
    obtain ⟨token, member', lexeme⟩ := Option.map_eq_some_iff.mp last
    obtain ⟨kind, text⟩ := Prod.mk.inj lexeme
    refine ⟨s, token, read, member', ?_, by rwa [kind]⟩
    obtain ⟨before, rfl⟩ := List.getLast?_eq_some_iff.mp member
    rw [text, String.toList_ofList, written_append]
    refine List.IsSuffix.trans ?_ (written_suffix _ _)
    rw [written, written, List.append_nil]
    exact List.suffix_append _ _

/-- A character that a text cannot be read past, with the text before it and after it: what stands
before it can be read, and it is neither in a comment there nor part of the last token. -/
structure Culprit (before : List Char) (c : Char) (after : List Char) : Prop where
  read : ∃ s, tokenize (String.ofList before) = .ok s
  outside : ¬ InComment before
  apart : ¬ Continues before c
  stray : Stray c after

theorem culprit_of_blocks {pieces : List Piece} {gap after : List Char} {c : Char}
    (separated : Separated pieces gap) (blocks : Blocks pieces gap c after) :
    Culprit (written pieces gap) c after := by
  obtain ⟨s, read, _⟩ := tokenize_separated separated String.toList_ofList
  refine ⟨⟨s, read⟩, outside_written separated blocks.isGap, ?_, blocks.stray⟩
  rw [continues_written separated blocks.isGap]
  rintro ⟨none, piece, member, more⟩
  rw [blocks.apart none piece member] at more
  contradiction

theorem Culprit.exists_blocks {before after : List Char} {c : Char}
    (culprit : Culprit before c after) :
    ∃ pieces gap, before = written pieces gap ∧ Separated pieces gap ∧ Blocks pieces gap c after := by
  obtain ⟨⟨s, read⟩, outside, apart, stray⟩ := culprit
  cases splits before with
  | @whole pieces last separated =>
    have isGap : IsGap last := by
      cases separated.last with
      | ended isGap => exact isGap
      | @comment gap text _ whole =>
        obtain ⟨start, split⟩ := written_suffix pieces (gap ++ '/' :: '/' :: text)
        exact absurd ⟨start ++ gap, text, by rw [← split, List.append_assoc], whole⟩ outside
    rw [continues_written separated isGap] at apart
    refine ⟨pieces, last, rfl, separated, isGap, fun none piece member => ?_, stray⟩
    exact Bool.eq_false_of_not_eq_true fun more => apart ⟨none, piece, member, more⟩
  | blocked separated blocks =>
    rw [tokenize_blocked separated blocks String.toList_ofList] at read
    contradiction

/-- A text is rejected exactly if it has a culprit, on the line of the culprit and with the whole of
it; every other text has the end of input as its last token and nowhere else. Byte by byte, a text is
read as it is by characters. -/
theorem rejected_at_culprit (source : String) :
    ((∃ e, tokenize source = .error e) ↔
      ∃ before c after, source.toList = before ++ c :: after ∧ Culprit before c after) ∧
    (∀ before c after, source.toList = before ++ c :: after → Culprit before c after →
      tokenize source = .error ⟨1 + before.count '\n', c⟩) ∧
    (∀ s, tokenize source = .ok s →
      ∃ tokens, s.toList = tokens ++ [⟨.endOfInput, "", 1 + source.toList.count '\n'⟩] ∧
        ∀ token ∈ tokens, token.kind ≠ .endOfInput) ∧
    tokenizeBytes source.toUTF8 =
      ((tokenize source).map fun s => s.toList.map Token.inBytes).mapError LexError.inBytes := by
  have located : ∀ before c after, source.toList = before ++ c :: after → Culprit before c after →
      tokenize source = .error ⟨1 + before.count '\n', c⟩ := by
    intro before c after text culprit
    obtain ⟨pieces, gap, rfl, separated, blocks⟩ := culprit.exists_blocks
    exact tokenize_blocked separated blocks text
  refine ⟨⟨?_, ?_⟩, located, ?_, tokenizeBytes_eq source⟩
  · rintro ⟨e, failed⟩
    generalize text : source.toList = chars
    cases splits chars with
    | whole separated =>
      obtain ⟨s, read, _⟩ := tokenize_separated separated text
      rw [read] at failed
      contradiction
    | blocked separated blocks =>
      exact ⟨_, _, _, rfl, culprit_of_blocks separated blocks⟩
  · rintro ⟨before, c, after, text, culprit⟩
    exact ⟨_, located before c after text culprit⟩
  · intro s read
    refine ⟨s.tokens, ?_, ?_⟩
    · rw [TokenStream.toList, endLine_of_tokenize read, Nat.add_comm]
    · intro token member
      obtain ⟨line, cut⟩ := cutFrom_tokenize read token member
      exact cut.kind

theorem rejected_at_culprit_accent :
    Culprit "if-goto // é\n12".toList 'é' ['-'] ∧
    tokenize "if-goto // é\n12é-" = .error ⟨2, 'é'⟩ ∧
    tokenizeBytes "if-goto // é\n12é-".toUTF8 = .error ⟨2, [0xc3, 0xa9]⟩ ∧
    ∃ s tokens, tokenize "if-goto // é" = .ok s ∧ s.toList = tokens ++ [⟨.endOfInput, "", 1⟩] ∧
      ∀ token ∈ tokens, token.kind ≠ .endOfInput := by
  let pieces : List Piece := [⟨[], .identifier, ['i', 'f', '-', 'g', 'o', 't', 'o']⟩,
    ⟨[' ', '/', '/', ' ', 'é', '\n'], .number, ['1', '2']⟩]
  have comment : IsGap [' ', '/', '/', ' ', 'é', '\n'] := by
    have whole : '\n' ∉ [' ', 'é'] := by decide
    exact .blank (by decide) (.comment whole .nil)
  have separated : Separated pieces [] := by
    constructor
    · simp only [pieces, List.forall_mem_cons]
      exact ⟨.nil, comment, nofun⟩
    · simp only [pieces, List.forall_mem_cons]
      exact ⟨.identifier ⟨'i', _, rfl, by decide, List.all_eq_true.mp (by decide)⟩,
        .number (List.cons_ne_nil _ _) (List.all_eq_true.mp (by decide)), nofun⟩
    · simp [pieces, Piece.Apart]
    · exact .ended .nil
  have stray : Stray 'é' ['-'] := ⟨by decide, by decide, by decide, by decide⟩
  have blocks : Blocks pieces [] 'é' ['-'] := by
    refine ⟨.nil, ?_, stray⟩
    rintro _ piece ⟨⟩
    decide
  have culprit : Culprit "if-goto // é\n12".toList 'é' ['-'] := culprit_of_blocks separated blocks
  obtain ⟨_, located, _, bytes⟩ := rejected_at_culprit "if-goto // é\n12é-"
  have failed := located _ 'é' ['-'] rfl culprit
  obtain ⟨_, _, ended, _⟩ := rejected_at_culprit "if-goto // é"
  have read : tokenize "if-goto // é" = .ok ⟨[⟨.identifier, "if-goto", 1⟩], 1⟩ := by decide +kernel
  refine ⟨culprit, failed, ?_, ?_⟩
  · rw [failed] at bytes
    exact bytes
  · obtain ⟨tokens, split, others⟩ := ended _ read
    exact ⟨_, tokens, read, split, others⟩

end HackToolchain.Vm
