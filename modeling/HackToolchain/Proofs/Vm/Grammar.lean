import HackToolchain.Proofs.Assembly.Reading
import HackToolchain.Proofs.Vm.Names

/-! The grammar of the language. A unit is read without an error exactly when its tokens are commands
one after the other, each with its arguments on its line, and what is read are these commands. -/
namespace HackToolchain.Vm

/-- An identifier. -/
abbrev Token.word (line : Nat) (text : String) : Token :=
  ⟨.identifier, text, line⟩

/-- A number. -/
abbrev Token.digits (line : Nat) (text : String) : Token :=
  ⟨.number, text, line⟩

/-- The tokens of a command as it is read. A push and a pop may name anything as their segment. -/
inductive Written (line : Nat) : List Token → Command → Prop
  | arithmetic (op : ArithmeticOp) :
      Written line [.word line op.name] ⟨.arithmetic, some op.name, none⟩
  | «return» : Written line [.word line "return"] ⟨.return, none, none⟩
  | named {kind : CommandKind} {name : String} (one : kind.arity = 1) (symbol : isSymbol name) :
      Written line [.word line kind.name, .word line name] ⟨kind, some name, none⟩
  | moved {kind : CommandKind} {segment text : String} {index : UInt16}
      (moves : kind = .push ∨ kind = .pop)
      (value : Text.decimal? 65535 text.toList = some index.toNat) :
      Written line [.word line kind.name, .word line segment, .digits line text]
        ⟨kind, some segment, some index⟩
  | counted {kind : CommandKind} {name text : String} {count : UInt16}
      (counts : kind = .function ∨ kind = .call) (symbol : isSymbol name)
      (value : Text.decimal? 65535 text.toList = some count.toNat) :
      Written line [.word line kind.name, .word line name, .digits line text]
        ⟨kind, some name, some count⟩

/-- Every keyword is the name of an operator or of the kind of its command. -/
theorem CommandKind.ofKeyword?_eq_some {keyword : String} {kind : CommandKind}
    (known : ofKeyword? keyword = some kind) :
    (∃ op : ArithmeticOp, keyword = op.name ∧ kind = .arithmetic) ∨
      kind ∈ withKeyword ∧ keyword = kind.name := by
  unfold ofKeyword? at known
  split at known
  · rename_i operator
    obtain ⟨op, found⟩ := Option.isSome_iff_exists.mp operator
    have name := List.find?_some (show List.find? _ _ = _ from found)
    exact .inl ⟨op, (of_decide_eq_true name).symm, (Option.some.inj known).symm⟩
  · have name := List.find?_some known
    exact .inr ⟨List.mem_of_find?_eq_some known, by simpa [eq_comm] using name⟩

theorem CommandKind.ofKeyword?_operator (op : ArithmeticOp) :
    ofKeyword? op.name = some .arithmetic := by
  cases op <;> decide

theorem CommandKind.ofKeyword?_name {kind : CommandKind} (keyed : kind ∈ withKeyword) :
    ofKeyword? kind.name = some kind := by
  revert kind
  decide

namespace CommandReader

theorem bind_eq_ok_iff {r : CommandReader α} {next : α → CommandReader β}
    {s after : TokenStream} {b : β} :
    (r >>= next) s = .ok b after ↔
      ∃ a between, r s = .ok a between ∧ next a between = .ok b after := by
  constructor
  · exact bind_eq_ok
  · rintro ⟨a, between, first, second⟩
    simp only [bind, EStateM.bind, first, second]

theorem pure_eq_ok_iff {a b : α} {s after : TokenStream} :
    (pure a : CommandReader α) s = .ok b after ↔ a = b ∧ s = after := by
  simp only [pure, EStateM.pure, EStateM.Result.ok.injEq]

theorem argument_eq_ok_iff {line : Nat} {keyword : String} {expected : Expected} {token : Token}
    {s after : TokenStream} :
    argument line keyword expected s = .ok token after ↔
      s = ⟨token :: after.tokens, after.endLine⟩ ∧ token.kind = expected.tokenKind ∧
        token.line = line := by
  obtain ⟨tokens, endLine⟩ := s
  obtain ⟨rest, lastLine⟩ := after
  cases tokens with
  | nil => cases expected <;> simp [argument, TokenStream.peek, Expected.tokenKind]
  | cons first tokens =>
    have unfolded : argument line keyword expected ⟨first :: tokens, endLine⟩ =
        if first.kind = expected.tokenKind ∧ first.line = line then .ok first ⟨tokens, endLine⟩
        else .error (.unexpected first.line keyword expected first.shown)
          ⟨first :: tokens, endLine⟩ := rfl
    rw [unfolded]
    split
    · rename_i fits
      simp only [EStateM.Result.ok.injEq, TokenStream.mk.injEq, List.cons.injEq]
      constructor
      · rintro ⟨rfl, rfl, rfl⟩
        exact ⟨⟨⟨rfl, rfl⟩, rfl⟩, fits⟩
      · rintro ⟨⟨⟨rfl, rfl⟩, rfl⟩, _⟩
        exact ⟨rfl, rfl, rfl⟩
    · rename_i misfits
      simp only [reduceCtorEq, TokenStream.mk.injEq, List.cons.injEq, false_iff, not_and]
      rintro ⟨⟨rfl, _⟩, _⟩ kind line
      exact misfits ⟨kind, line⟩

theorem segment_eq_ok_iff {line : Nat} {keyword name : String} {s after : TokenStream} :
    segment line keyword s = .ok name after ↔
      s = ⟨.word line name :: after.tokens, after.endLine⟩ := by
  rw [segment, map_eq_pure_bind, bind_eq_ok_iff]
  simp only [argument_eq_ok_iff, pure_eq_ok_iff]
  constructor
  · rintro ⟨⟨kind, text, place⟩, between, ⟨rfl, rfl, rfl⟩, rfl, rfl⟩
    rfl
  · rintro rfl
    exact ⟨_, after, ⟨rfl, rfl, rfl⟩, rfl, rfl⟩

theorem symbol_eq_ok_iff {line : Nat} {keyword name : String} {s after : TokenStream} :
    symbol line keyword s = .ok name after ↔
      s = ⟨.word line name :: after.tokens, after.endLine⟩ ∧ isSymbol name := by
  rw [symbol, bind_eq_ok_iff]
  constructor
  · rintro ⟨⟨kind, text, place⟩, between, read, named⟩
    obtain ⟨rfl, rfl, rfl⟩ := argument_eq_ok_iff.mp read
    split at named
    · obtain ⟨rfl, rfl⟩ := pure_eq_ok_iff.mp named
      exact ⟨rfl, ‹_›⟩
    · contradiction
  · rintro ⟨rfl, named⟩
    refine ⟨.word line name, after, argument_eq_ok_iff.mpr ⟨rfl, rfl, rfl⟩, ?_⟩
    rw [if_pos named]
    rfl

theorem number_eq_ok_iff {line : Nat} {keyword : String} {count : UInt16}
    {s after : TokenStream} :
    number line keyword s = .ok count after ↔
      ∃ text, s = ⟨.digits line text :: after.tokens, after.endLine⟩ ∧
        Text.decimal? 65535 text.toList = some count.toNat := by
  rw [number, bind_eq_ok_iff]
  constructor
  · rintro ⟨⟨kind, text, place⟩, between, read, valued⟩
    obtain ⟨rfl, rfl, rfl⟩ := argument_eq_ok_iff.mp read
    cases value : Text.decimal? 65535 text.toList with
    | none =>
      simp only [value] at valued
      contradiction
    | some n =>
      simp only [value] at valued
      obtain ⟨rfl, rfl⟩ := pure_eq_ok_iff.mp valued
      have bound : n < 65536 := Nat.lt_succ_of_le (Text.decimal?_le value)
      exact ⟨text, rfl, by rw [value, UInt16.toNat_ofNat', Nat.mod_eq_of_lt bound]⟩
  · rintro ⟨text, rfl, value⟩
    refine ⟨.digits line text, after, argument_eq_ok_iff.mpr ⟨rfl, rfl, rfl⟩, ?_⟩
    simp only [value, UInt16.ofNat_toNat]
    rfl

/-- The arguments of every kind of command, each with what comes of it. -/
theorem written_of_arguments {line : Nat} {keyword : String} {kind : CommandKind} {c : Command}
    {s after : TokenStream} (known : CommandKind.ofKeyword? keyword = some kind)
    (read : arguments line keyword kind s = .ok c after) :
    ∃ used, Written line (.word line keyword :: used) c ∧
      s = ⟨used ++ after.tokens, after.endLine⟩ := by
  rcases CommandKind.ofKeyword?_eq_some known with ⟨op, rfl, rfl⟩ | ⟨keyed, rfl⟩
  · obtain ⟨rfl, rfl⟩ := pure_eq_ok_iff.mp read
    exact ⟨[], .arithmetic op, rfl⟩
  cases kind with
  | arithmetic | erroneous => exact absurd keyed (by decide)
  | «return» =>
    obtain ⟨rfl, rfl⟩ := pure_eq_ok_iff.mp read
    exact ⟨[], .return, rfl⟩
  | label | goto | ifGoto =>
    obtain ⟨name, between, first, rest⟩ := bind_eq_ok_iff.mp read
    obtain ⟨rfl, symbol⟩ := symbol_eq_ok_iff.mp first
    obtain ⟨rfl, rfl⟩ := pure_eq_ok_iff.mp rest
    exact ⟨_, .named rfl symbol, rfl⟩
  | push | pop =>
    obtain ⟨name, between, first, rest⟩ := bind_eq_ok_iff.mp read
    obtain ⟨index, last, second, finished⟩ := bind_eq_ok_iff.mp rest
    obtain rfl := segment_eq_ok_iff.mp first
    obtain ⟨text, rfl, value⟩ := number_eq_ok_iff.mp second
    obtain ⟨rfl, rfl⟩ := pure_eq_ok_iff.mp finished
    exact ⟨_, .moved (by simp) value, rfl⟩
  | function | call =>
    obtain ⟨name, between, first, rest⟩ := bind_eq_ok_iff.mp read
    obtain ⟨count, last, second, finished⟩ := bind_eq_ok_iff.mp rest
    obtain ⟨rfl, symbol⟩ := symbol_eq_ok_iff.mp first
    obtain ⟨text, rfl, value⟩ := number_eq_ok_iff.mp second
    obtain ⟨rfl, rfl⟩ := pure_eq_ok_iff.mp finished
    exact ⟨_, .counted (by simp) symbol value, rfl⟩

theorem command_word {line : Nat} {keyword : String} {kind : CommandKind}
    (known : CommandKind.ofKeyword? keyword = some kind) (rest : List Token) (endLine : Nat) :
    command ⟨.word line keyword :: rest, endLine⟩ = arguments line keyword kind ⟨rest, endLine⟩ := by
  simp only [command, TokenStream.peek, List.headD_cons, known]
  rfl

/-- A command that is read was written, and its tokens are those used up. -/
theorem written_of_command {c : Command} {s after : TokenStream} (read : command s = .ok c after) :
    ∃ used, Written s.peek.line used c ∧ s = ⟨used ++ after.tokens, after.endLine⟩ := by
  obtain ⟨tokens, endLine⟩ := s
  cases tokens with
  | nil => contradiction
  | cons token rest =>
    obtain ⟨kind, keyword, line⟩ := token
    cases kind with
    | number | endOfInput => contradiction
    | identifier =>
      cases known : CommandKind.ofKeyword? keyword with
      | none => simp [command, TokenStream.peek, known] at read
      | some kind =>
        rw [command_word known] at read
        obtain ⟨used, written, split⟩ := written_of_arguments known read
        obtain ⟨rfl, rfl⟩ := TokenStream.mk.inj split
        exact ⟨_, written, rfl⟩

/-- A command that was written is read, whatever follows it. -/
theorem command_of_written {line : Nat} {used : List Token} {c : Command}
    (written : Written line used c) (rest : List Token) (endLine : Nat) :
    command ⟨used ++ rest, endLine⟩ = .ok c ⟨rest, endLine⟩ := by
  cases written with
  | arithmetic op => exact command_word (CommandKind.ofKeyword?_operator op) rest endLine
  | «return» =>
    have known : CommandKind.ofKeyword? "return" = some .return := by decide
    exact command_word known rest endLine
  | @named kind name one symbol =>
    cases kind with
    | label | goto | ifGoto =>
      rw [List.cons_append, command_word (CommandKind.ofKeyword?_name (by decide))]
      exact bind_eq_ok_iff.mpr ⟨name, _, symbol_eq_ok_iff.mpr ⟨rfl, symbol⟩, rfl⟩
    | _ => contradiction
  | @moved kind segment text index moves value =>
    rcases moves with rfl | rfl
    all_goals
      rw [List.cons_append, command_word (CommandKind.ofKeyword?_name (by decide))]
      refine bind_eq_ok_iff.mpr
        ⟨segment, ⟨.digits line text :: rest, endLine⟩, segment_eq_ok_iff.mpr rfl, ?_⟩
      exact bind_eq_ok_iff.mpr ⟨index, _, number_eq_ok_iff.mpr ⟨text, rfl, value⟩, rfl⟩
  | @counted kind name text count counts symbol value =>
    rcases counts with rfl | rfl
    all_goals
      rw [List.cons_append, command_word (CommandKind.ofKeyword?_name (by decide))]
      refine bind_eq_ok_iff.mpr
        ⟨name, ⟨.digits line text :: rest, endLine⟩, symbol_eq_ok_iff.mpr ⟨rfl, symbol⟩, ?_⟩
      exact bind_eq_ok_iff.mpr ⟨count, _, number_eq_ok_iff.mpr ⟨text, rfl, value⟩, rfl⟩

end CommandReader

/-- The tokens of an instruction, all on one line. -/
inductive Spells (line : Nat) : List Token → Instruction → Prop
  | arithmetic (op : ArithmeticOp) : Spells line [.word line op.name] (.arithmetic op)
  | «return» : Spells line [.word line "return"] .return
  | label {name : String} (symbol : isSymbol name) :
      Spells line [.word line "label", .word line name] (.label name)
  | goto {target : String} (symbol : isSymbol target) :
      Spells line [.word line "goto", .word line target] (.goto target)
  | ifGoto {target : String} (symbol : isSymbol target) :
      Spells line [.word line "if-goto", .word line target] (.ifGoto target)
  | push (segment : Segment) {text : String} {index : UInt16}
      (value : Nat.ofDigitChars 10 text.toList 0 = index.toNat) :
      Spells line [.word line "push", .word line segment.name, .digits line text]
        (.push segment index)
  | pop (segment : Segment) {text : String} {index : UInt16}
      (value : Nat.ofDigitChars 10 text.toList 0 = index.toNat) :
      Spells line [.word line "pop", .word line segment.name, .digits line text]
        (.pop segment index)
  | function {name text : String} {locals : UInt16} (symbol : isSymbol name)
      (value : Nat.ofDigitChars 10 text.toList 0 = locals.toNat) :
      Spells line [.word line "function", .word line name, .digits line text]
        (.function name locals)
  | call {function text : String} {arguments : UInt16} (symbol : isSymbol function)
      (value : Nat.ofDigitChars 10 text.toList 0 = arguments.toNat) :
      Spells line [.word line "call", .word line function, .digits line text]
        (.call function arguments)

/-- What numbers consist of. -/
def Token.Numeric (token : Token) : Prop :=
  token.kind = .number → token.text.toList ≠ [] ∧ token.text.toList.all Char.isDigit

theorem Segment.ofName_eq_ok_iff {word : String} {segment : Segment} :
    ofName word = .ok segment ↔ word = segment.name := by
  constructor
  · intro found
    unfold ofName at found
    split at found
    · rename_i other known
      obtain rfl := Except.ok.inj found
      have name := List.find?_some (show List.find? _ _ = _ from known)
      exact (of_decide_eq_true name).symm
    · contradiction
  · rintro rfl
    cases segment <;> rfl

theorem Segment.ofName_eq_error {word : String} {e : InstructionError}
    (failed : ofName word = .error e) : e = .unknownSegment word := by
  unfold ofName at failed
  split at failed
  · contradiction
  · exact (Except.error.inj failed).symm

namespace Command

theorem toInstruction_arithmetic (op : ArithmeticOp) :
    toInstruction ⟨.arithmetic, some op.name, none⟩ = .ok (.arithmetic op) := by
  cases op <;> rfl

theorem toInstruction_push (segment : Segment) (index : UInt16) :
    toInstruction ⟨.push, some segment.name, some index⟩ = .ok (.push segment index) := by
  cases segment <;> rfl

theorem toInstruction_pop (segment : Segment) (index : UInt16) :
    toInstruction ⟨.pop, some segment.name, some index⟩ = .ok (.pop segment index) := by
  cases segment <;> rfl

theorem toInstruction_unknown {kind : CommandKind} {word : String} {index : UInt16}
    {e : InstructionError} (moves : kind = .push ∨ kind = .pop)
    (failed : Segment.ofName word = .error e) :
    toInstruction ⟨kind, some word, some index⟩ = .error e := by
  rcases moves with rfl | rfl <;> simp [toInstruction, requireName, bind, Except.bind, failed]

end Command

theorem value_of_decimal? {limit n : Nat} {digits : List Char}
    (read : Text.decimal? limit digits = some n) : Nat.ofDigitChars 10 digits 0 = n := by
  unfold Text.decimal? at read
  split at read
  · exact Option.some.inj read
  · contradiction

section Typed

variable {line : Nat} {used : List Token} {c : Command} {i : Instruction}

/-- The first argument of a push or pop is all that can still be wrong with a command. -/
theorem Written.typed (written : Written line used c) :
    match c.toInstruction with
    | .ok i => Spells line used i
    | .error e => ∃ word, e = .unknownSegment word := by
  cases written with
  | arithmetic op =>
    rw [Command.toInstruction_arithmetic]
    exact .arithmetic op
  | «return» => exact .return
  | @named kind name one symbol =>
    cases kind with
    | label => exact .label symbol
    | goto => exact .goto symbol
    | ifGoto => exact .ifGoto symbol
    | _ => contradiction
  | @moved kind word text index moves value =>
    have value := value_of_decimal? value
    cases named : Segment.ofName word with
    | error e =>
      rw [Command.toInstruction_unknown moves named]
      exact ⟨word, Segment.ofName_eq_error named⟩
    | ok segment =>
      obtain rfl := Segment.ofName_eq_ok_iff.mp named
      rcases moves with rfl | rfl
      · rw [Command.toInstruction_push]
        exact .push segment value
      · rw [Command.toInstruction_pop]
        exact .pop segment value
  | @counted kind name text count counts symbol value =>
    have value := value_of_decimal? value
    rcases counts with rfl | rfl
    · exact .function symbol value
    · exact .call symbol value

/-- An instruction that is spelled is a command that was written. -/
theorem Spells.exists_written (spells : Spells line used i)
    (numeric : ∀ token ∈ used, token.Numeric) :
    ∃ c, Written line used c ∧ c.toInstruction = .ok i := by
  have number {text : String} {count : UInt16} (member : .digits line text ∈ used)
      (value : Nat.ofDigitChars 10 text.toList 0 = count.toNat) :
      Text.decimal? 65535 text.toList = some count.toNat := by
    obtain ⟨some, digits⟩ := numeric _ member rfl
    have bound : Nat.ofDigitChars 10 text.toList 0 ≤ 65535 :=
      value ▸ Nat.le_of_lt_succ count.toNat_lt
    rw [Text.decimal?, if_pos ⟨some, digits, bound⟩, value]
  cases spells with
  | arithmetic op => exact ⟨_, .arithmetic op, Command.toInstruction_arithmetic op⟩
  | «return» => exact ⟨_, .return, rfl⟩
  | label symbol => exact ⟨_, @Written.named line .label _ rfl symbol, rfl⟩
  | goto symbol => exact ⟨_, @Written.named line .goto _ rfl symbol, rfl⟩
  | ifGoto symbol => exact ⟨_, @Written.named line .ifGoto _ rfl symbol, rfl⟩
  | push segment value =>
    exact ⟨_, .moved (.inl rfl) (number (by simp) value), Command.toInstruction_push segment _⟩
  | pop segment value =>
    exact ⟨_, .moved (.inr rfl) (number (by simp) value), Command.toInstruction_pop segment _⟩
  | function symbol value =>
    exact ⟨_, .counted (.inl rfl) symbol (number (by simp) value), rfl⟩
  | call symbol value =>
    exact ⟨_, .counted (.inr rfl) symbol (number (by simp) value), rfl⟩

end Typed

theorem Written.line_eq {line : Nat} {used : List Token} {c : Command}
    (written : Written line used c) : ∃ token rest, used = token :: rest ∧ token.line = line := by
  cases written <;> exact ⟨_, _, rfl, rfl⟩

namespace TokenStream

variable {s : TokenStream} {line : Nat} {used : List Token} {c : Command}

theorem readingsAfter_append (before earlier : List Reading) (s : TokenStream) :
    readingsAfter (before ++ earlier) s = earlier.reverse ++ readingsAfter before s := by
  induction before, s using readingsAfter.induct with
  | case1 before s none =>
    rw [readingsAfter, if_pos none, readingsAfter, if_pos none, List.reverse_append]
  | case2 before s more ih =>
    rw [readingsAfter, if_neg more, ← List.cons_append, ih]
    conv_rhs => rw [readingsAfter, if_neg more]

theorem readings_nil (endLine : Nat) : readings ⟨[], endLine⟩ = [] := by
  rw [readings, readingsAfter, if_pos rfl]
  rfl

theorem readings_cons (more : s.tokens ≠ []) : s.readings = s.read.1 :: s.read.2.readings := by
  rw [readings, readingsAfter, if_neg more]
  exact readingsAfter_append [] [s.read.1] s.read.2

theorem readings_of_written (written : Written line used c) (rest : List Token) (endLine : Nat) :
    readings ⟨used ++ rest, endLine⟩ = ⟨line, .ok c⟩ :: readings ⟨rest, endLine⟩ := by
  have result : read ⟨used ++ rest, endLine⟩ = (⟨line, .ok c⟩, ⟨rest, endLine⟩) := by
    obtain ⟨token, others, rfl, rfl⟩ := written.line_eq
    rw [read, CommandReader.command_of_written written]
    rfl
  have more : used ++ rest ≠ [] := by
    obtain ⟨token, others, rfl, _⟩ := written.line_eq
    exact List.cons_ne_nil _ _
  rw [readings_cons more, result]

theorem exists_written (result : s.read.1.result = .ok c) :
    ∃ line used, Written line used c ∧ s = ⟨used ++ s.read.2.tokens, s.read.2.endLine⟩ := by
  simp only [read] at result ⊢
  split at result
  · rename_i command after found
    obtain rfl := Except.ok.inj result
    obtain ⟨used, written, split⟩ := CommandReader.written_of_command found
    exact ⟨_, used, written, split⟩
  · contradiction

end TokenStream

theorem lineTokens_eq_ok {line : List Char} {number : Nat} {tokens : List Token} :
    lineTokens line number = .ok tokens ↔
      ∃ parts, List.Forall₂ (fun word part => wordTokens number word = .ok part)
        (Text.words (beforeComment line)) parts ∧ parts.flatten = tokens := by
  rw [lineTokens]
  simp only [← Assembly.mapM_eq_ok]
  cases (Text.words (beforeComment line)).mapM (wordTokens number) <;> simp [Except.map]

theorem tokenize_eq_ok {source : String} {s : TokenStream} :
    tokenize source = .ok s ↔
      ∃ parts, List.Forall₂ (fun line part => lineTokens line.1 line.2 = .ok part)
        (Text.numberedLines source.toList) parts ∧
        ⟨parts.flatten, (Text.lines source.toList).length⟩ = s := by
  rw [tokenize]
  simp only [← Assembly.mapM_eq_ok, Text.numberedLines, List.length_zipIdx]
  cases ((Text.lines source.toList).zipIdx 1).mapM fun line => lineTokens line.1 line.2 <;>
    simp [bind, Except.bind, pure, Except.pure]

/-- A token of a line is no end of input, and a number is one of digits. -/
structure Token.CutFrom (token : Token) (line : Nat) : Prop where
  line : token.line = line
  kind : token.kind ≠ .endOfInput
  numeric : token.Numeric

theorem cutFrom_wordTokens {line : Nat} {word : List Char} {tokens : List Token}
    (read : wordTokens line word = .ok tokens) : ∀ token ∈ tokens, token.CutFrom line := by
  intro token member
  unfold wordTokens at read
  simp only at read
  split at read
  · contradiction
  · obtain rfl := Except.ok.inj read
    obtain ⟨⟨kind, text⟩, piece, found⟩ := List.mem_filterMap.mp member
    simp only [Option.ite_none_left_eq_some, Option.some.injEq] at found
    obtain ⟨some, rfl⟩ := found
    refine ⟨rfl, ?_, fun number => ?_⟩
    · rintro rfl
      simp at piece
    · obtain rfl : kind = .number := number
      have digits : text = word.takeWhile Char.isDigit := by simpa using piece
      rw [String.toList_ofList]
      refine ⟨some, ?_⟩
      rw [digits, List.all_eq_true]
      exact fun c => List.mem_takeWhile_imp

theorem cutFrom_lineTokens {text : List Char} {number : Nat} {tokens : List Token}
    (read : lineTokens text number = .ok tokens) : ∀ token ∈ tokens, token.CutFrom number := by
  intro token member
  obtain ⟨groups, words, rfl⟩ := lineTokens_eq_ok.mp read
  obtain ⟨group, here, member⟩ := List.mem_flatten.mp member
  obtain ⟨word, _, read⟩ := exists_of_mem_right words here
  exact cutFrom_wordTokens read token member

theorem cutFrom_tokenize {source : String} {s : TokenStream} (tokenized : tokenize source = .ok s) :
    ∀ token ∈ s.tokens, ∃ line, token.CutFrom line := by
  intro token member
  obtain ⟨parts, lines, rfl⟩ := tokenize_eq_ok.mp tokenized
  obtain ⟨part, there, member⟩ := List.mem_flatten.mp member
  obtain ⟨line, _, read⟩ := exists_of_mem_right lines there
  exact ⟨line.2, cutFrom_lineTokens read token member⟩

theorem numeric_tokenize {source : String} {s : TokenStream} (tokenized : tokenize source = .ok s) :
    ∀ token ∈ s.tokens, token.Numeric := by
  intro token member
  obtain ⟨line, cut⟩ := cutFrom_tokenize tokenized token member
  exact cut.numeric

/-- Tokens that spell instructions one after the other, each on one line. -/
def Sentence (tokens : List Token) (instructions : List Instruction) : Prop :=
  ∃ groups, groups.flatten = tokens ∧
    List.Forall₂ (fun group i => ∃ line, Spells line group i) groups instructions

/-- A reading that yields an instruction. -/
def Reading.Yields (reading : Reading) (i : Instruction) : Prop :=
  Codegen.ofReading reading = .ok i

theorem Reading.yields_iff {line : Nat} {result : Except CommandError Command} {i : Instruction} :
    Yields ⟨line, result⟩ i ↔ ∃ c, result = .ok c ∧ c.toInstruction = .ok i := by
  cases result with
  | error e => simp [Yields, Codegen.ofReading]
  | ok c =>
    cases typed : c.toInstruction <;> simp [Yields, Codegen.ofReading, Except.mapError, typed]

theorem sentence_of_yields {s : TokenStream} {instructions : List Instruction}
    (yields : List.Forall₂ Reading.Yields s.readings instructions) :
    Sentence s.tokens instructions := by
  induction size : s.tokens.length using Nat.strongRecOn generalizing s instructions with
  | ind n ih =>
    by_cases more : s.tokens = []
    · obtain ⟨tokens, endLine⟩ := s
      obtain rfl : tokens = [] := more
      rw [TokenStream.readings_nil, List.forall₂_nil_left_iff] at yields
      exact ⟨[], rfl, yields ▸ .nil⟩
    · rw [TokenStream.readings_cons more, List.forall₂_cons_left_iff] at yields
      obtain ⟨i, later, first, rest, rfl⟩ := yields
      obtain ⟨c, result, typed⟩ := Reading.yields_iff.mp first
      obtain ⟨line, used, written, split⟩ := TokenStream.exists_written result
      have spells := written.typed
      rw [typed] at spells
      have shorter := size ▸ TokenStream.read_length_lt s more
      obtain ⟨groups, flat, spelled⟩ := ih _ shorter rest rfl
      refine ⟨used :: groups, ?_, .cons ⟨line, spells⟩ spelled⟩
      rw [List.flatten_cons, flat, congrArg TokenStream.tokens split]

theorem yields_of_sentence {s : TokenStream} {instructions : List Instruction}
    (sentence : Sentence s.tokens instructions) (numeric : ∀ token ∈ s.tokens, token.Numeric) :
    List.Forall₂ Reading.Yields s.readings instructions := by
  obtain ⟨tokens, endLine⟩ := s
  obtain ⟨groups, rfl, spelled⟩ := sentence
  induction spelled with
  | nil =>
    rw [List.flatten_nil, TokenStream.readings_nil]
    exact .nil
  | @cons group i groups instructions spells _ ih =>
    obtain ⟨line, spells⟩ := spells
    simp only [List.flatten_cons, List.forall_mem_append] at numeric ⊢
    obtain ⟨c, written, typed⟩ := spells.exists_written numeric.1
    rw [TokenStream.readings_of_written written]
    exact .cons (Reading.yields_iff.mpr ⟨c, rfl, typed⟩) (ih numeric.2)

theorem TokenStream.written_of_mem {s : TokenStream} {reading : Reading} {c : Command}
    (member : reading ∈ s.readings) (result : reading.result = .ok c) :
    ∃ line used, Written line used c := by
  induction size : s.tokens.length using Nat.strongRecOn generalizing s with
  | ind n ih =>
    by_cases more : s.tokens = []
    · obtain ⟨tokens, endLine⟩ := s
      obtain rfl : tokens = [] := more
      rw [readings_nil] at member
      contradiction
    · rw [readings_cons more, List.mem_cons] at member
      rcases member with rfl | later
      · obtain ⟨line, used, written, _⟩ := exists_written result
        exact ⟨line, used, written⟩
      · exact ih _ (size ▸ read_length_lt s more) later rfl

/-- A unit that can be cut into tokens is read without an error as some instructions exactly if its
tokens spell them. A command that was read can only fail to be an instruction because of its
segment. -/
theorem yields_iff_sentence {source : String} {s : TokenStream}
    (tokenized : tokenize source = .ok s) :
    (∀ instructions, List.Forall₂ Reading.Yields s.readings instructions ↔
      Sentence s.tokens instructions) ∧
    ∀ reading ∈ s.readings, ∀ c e, reading.result = .ok c → c.toInstruction = .error e →
      ∃ word, e = .unknownSegment word := by
  constructor
  · intro instructions
    constructor
    · exact sentence_of_yields
    · intro sentence
      exact yields_of_sentence sentence (numeric_tokenize tokenized)
  · intro reading member c e result failed
    obtain ⟨line, used, written⟩ := TokenStream.written_of_mem member result
    have typed := written.typed
    rwa [failed] at typed

/-- A number may touch the keyword after it, and a keyword can be a name. -/
theorem yields_iff_sentence_touching : ∃ s,
    tokenize "push constant 007add // three words\nif-goto push" = .ok s ∧
    List.Forall₂ Reading.Yields s.readings
      [.push .constant 7, .arithmetic .add, .ifGoto "push"] := by
  have tokenized : tokenize "push constant 007add // three words\nif-goto push" =
      .ok ⟨[.word 1 "push", .word 1 "constant", .digits 1 "007", .word 1 "add",
        .word 2 "if-goto", .word 2 "push"], 2⟩ := by decide +kernel
  refine ⟨_, tokenized, ((yields_iff_sentence tokenized).1 _).mpr ?_⟩
  refine ⟨[[.word 1 "push", .word 1 "constant", .digits 1 "007"], [.word 1 "add"],
    [.word 2 "if-goto", .word 2 "push"]], rfl, ?_⟩
  have number : Nat.ofDigitChars 10 "007".toList 0 = (7 : UInt16).toNat := by decide
  exact .cons ⟨1, .push .constant number⟩ (.cons ⟨1, .arithmetic .add⟩
    (.cons ⟨2, .ifGoto (by decide)⟩ .nil))

end HackToolchain.Vm
