import HackToolchain.Proofs.Codegen.FirstFailure

/-! A stream with room for so many bytes. It takes the first bytes of what a stream without a limit
would take, and up to the first call that does not fit all calls answer alike. From there on the two
writers have nothing in common but those bytes. -/
namespace HackToolchain.Codegen

namespace Writer

/-- Everything a writer can be asked for: an operation or a whole unit. -/
inductive Call where
  | perform (operation : Operation)
  | unit (source : String)
  deriving DecidableEq

def call (w : Writer) : Call → Outcome
  | .perform operation => w.perform operation
  | .unit source => w.unit source

/-- The writer after calls, each made whether or not those before it succeeded. -/
def afterCalls (w : Writer) (calls : List Call) : Writer :=
  calls.foldl (fun w call => (w.call call).writer) w

/-- What each of these calls answers. -/
def answers : Writer → List Call → List (Option Vm.Error)
  | _, [] => []
  | w, call :: rest => (w.call call).failure? :: (w.call call).writer.answers rest

end Writer

namespace Sink

variable {s : Sink}

theorem bytes_extend_line (whole : s.cut = .empty) (line : Line) :
    (s.extend [line]).bytes = s.bytes ++ line.text.toUTF8 := by
  rw [bytes_extend whole]
  simp

theorem size_line_pos (line : Line) : 0 < line.text.toUTF8.size := by
  have ended : line.text ≠ "" := by
    intro none
    have text := line.toList_text
    rw [none] at text
    exact List.concat_ne_nil _ _ text.symm
  exact Nat.pos_of_ne_zero (mt String.utf8ByteSize_eq_zero_iff.mp ended)

/-- A stream without room takes nothing: no line is empty. -/
theorem put_full (full : s.room? = some 0) (lines : List Line) : (s.put lines).1 = s := by
  cases lines with
  | nil => rfl
  | cons line rest =>
    have refused : s.putLine line = (s, false) := by
      obtain ⟨taken, cut, room?⟩ := s
      obtain rfl : room? = some 0 := full
      have some := size_line_pos line
      simp only [putLine]
      rw [if_neg (Nat.not_le_of_lt some), ByteArray.extract_same, ByteArray.append_empty]
    rw [put, refused]

end Sink

namespace Writer

/-- The stream of a writer takes everything, and has so far. -/
structure Unlimited (w : Writer) : Prop where
  room : w.sink.room? = none
  whole : w.sink.cut = .empty

/-- One writer does what another does, on a stream that has had room for it. -/
structure InStep (limit : Nat) (w limited : Writer) : Prop where
  scope : limited.scope = w.scope
  annotate : limited.annotate = w.annotate
  lines : limited.sink.lines = w.sink.lines
  whole : limited.sink.cut = .empty
  room : limited.sink.room? = some (limit - w.sink.bytes.size)
  fits : w.sink.bytes.size ≤ limit

/-- The stream of one writer is full and ends in the middle of what another has written. -/
structure CutOff (limit : Nat) (w limited : Writer) : Prop where
  full : limited.sink.room? = some 0
  bytes : limited.sink.bytes = w.sink.bytes.extract 0 limit
  missed : limit < w.sink.bytes.size

theorem InStep.bytes {limit : Nat} {w limited : Writer} (step : InStep limit w limited)
    (unlimited : w.Unlimited) : limited.sink.bytes = w.sink.bytes := by
  rw [Sink.bytes, Sink.bytes, Sink.text, Sink.text, step.lines, step.whole, unlimited.whole]

theorem InStep.settle {limit : Nat} {w limited : Writer} (step : InStep limit w limited)
    (scope : Scope) :
    InStep limit { w with scope := scope } { limited with scope := scope } :=
  ⟨rfl, step.annotate, step.lines, step.whole, step.room, step.fits⟩

/-- What is written behind the limit is missed. -/
theorem CutOff.extend {limit : Nat} {w limited after limited' : Writer} {lines : List Line}
    (cutOff : CutOff limit w limited) (unlimited : w.Unlimited)
    (more : after.sink = w.sink.extend lines) (same : limited'.sink = limited.sink) :
    CutOff limit after limited' := by
  obtain ⟨full, bytes, missed⟩ := cutOff
  have written := Sink.bytes_extend unlimited.whole lines
  constructor
  · rw [same, full]
  · rw [same, more, written, ByteArray.extract_append, bytes, Nat.sub_eq_zero_of_le missed.le,
      Nat.zero_sub, ByteArray.extract_same, ByteArray.append_empty]
  · rw [more, written, ByteArray.size_append]
    exact Nat.lt_add_right _ missed

/-- Two outcomes: the same, or that of a stream that is full now. -/
inductive Follows (limit : Nat) (o limited : Outcome) : Prop
  | inStep (step : InStep limit o.writer limited.writer) (same : limited.failure? = o.failure?)
  | cutOff (cut : CutOff limit o.writer limited.writer)
      (failed : limited.failure? = some (.write .sinkFull))

/-- A way of using a writer of which a full stream shows a part. -/
structure Truncates (run : Writer → Outcome) : Prop where
  adds : ∀ w : Writer, w.Unlimited → ∃ lines, (run w).writer.sink = w.sink.extend lines
  full : ∀ w : Writer, w.sink.room? = some 0 → (run w).writer.sink = w.sink
  follows : ∀ limit w limited, w.Unlimited → InStep limit w limited →
    Follows limit (run w) (run limited)

theorem Unlimited.extend {w after : Writer} {lines : List Line} (unlimited : w.Unlimited)
    (more : after.sink = w.sink.extend lines) : after.Unlimited := by
  constructor
  · rw [more, ← unlimited.room]
    rfl
  · rw [more, ← unlimited.whole]
    rfl

theorem Unlimited.setFileName {w : Writer} (unlimited : w.Unlimited) (name : String) :
    (w.setFileName name).Unlimited :=
  ⟨unlimited.room, unlimited.whole⟩

/-- A change of the scope is the same on both. -/
theorem truncates_settle (scope : Scope) (failure? : Option Vm.Error) :
    Truncates fun w => ⟨{ w with scope := scope }, failure?⟩ where
  adds w _ := ⟨[], (extend_nil w.sink).symm⟩
  full _ _ := rfl
  follows _ _ _ _ step := .inStep (step.settle scope) rfl

/-- What a writer does may depend on everything about it but its stream. -/
theorem truncates_reading {run : Scope → Bool → Writer → Outcome}
    (each : ∀ scope annotate, Truncates (run scope annotate)) :
    Truncates fun w => run w.scope w.annotate w where
  adds w := (each w.scope w.annotate).adds w
  full w := (each w.scope w.annotate).full w
  follows limit w limited unlimited step := by
    rw [step.scope, step.annotate]
    exact (each w.scope w.annotate).follows limit w limited unlimited step

theorem truncates_ended (failure? : Option Vm.Error) : Truncates fun w => ⟨w, failure?⟩ :=
  truncates_reading fun scope _ => truncates_settle scope failure?

theorem Truncates.andThen {run next : Writer → Outcome} (first : Truncates run)
    (second : Truncates next) : Truncates fun w => (run w).andThen next where
  adds w unlimited := by
    obtain ⟨lines, more⟩ := first.adds w unlimited
    simp only [Outcome.andThen]
    split
    · obtain ⟨rest, last⟩ := second.adds _ (unlimited.extend more)
      exact ⟨lines ++ rest, by rw [last, more, Sink.extend_extend]⟩
    · exact ⟨lines, more⟩
  full w full := by
    have kept := first.full w full
    simp only [Outcome.andThen]
    split
    · exact (second.full _ (kept ▸ full)).trans kept
    · exact kept
  follows limit w limited unlimited step := by
    obtain ⟨lines, more⟩ := first.adds w unlimited
    have unlimited' := unlimited.extend more
    cases first.follows limit w limited unlimited step with
    | inStep step same =>
      simp only [Outcome.andThen, same]
      split
      · exact second.follows limit _ _ unlimited' step
      · exact .inStep step same
    | cutOff cut failed =>
      have stopped : (run limited).andThen next = run limited := by
        rw [Outcome.andThen, failed]
      rw [stopped]
      refine .cutOff ?_ failed
      simp only [Outcome.andThen]
      split
      · obtain ⟨rest, last⟩ := second.adds _ unlimited'
        exact cut.extend unlimited' last rfl
      · exact cut

theorem put_cons (w : Writer) (line : Line) (rest : List Line) :
    w.put (line :: rest) = (w.put [line]).andThen (·.put rest) := by
  have both := w.sink.put_append [line] rest
  rw [List.singleton_append] at both
  cases first : w.sink.put [line] with
  | mk sink fits =>
    rw [first] at both
    cases fits with
    | false => rw [put_of_cut both, put_of_cut first, Outcome.andThen]
    | true =>
      rw [put_of_taken first, Outcome.andThen]
      dsimp only at both ⊢
      cases later : sink.put rest with
      | mk after fits =>
        rw [later] at both
        cases fits with
        | true => rw [put_of_taken both, put_of_taken later]
        | false => rw [put_of_cut both, put_of_cut later]

theorem put_writer (w : Writer) (lines : List Line) :
    (w.put lines).writer = ⟨w.scope, (w.sink.put lines).1, w.annotate⟩ := by
  cases taken : w.sink.put lines with
  | mk sink fits =>
    cases fits with
    | true => rw [put_of_taken taken]
    | false => rw [put_of_cut taken]

theorem put_fitting {w : Writer} {room : Nat} (left : w.sink.room? = some room) {line : Line}
    (fits : line.text.toUTF8.size ≤ room) :
    w.put [line] = ⟨{ w with sink := { w.sink with
      lines := w.sink.lines.push line, room? := some (room - line.text.toUTF8.size) } }, none⟩ := by
  apply put_of_taken
  rw [Sink.put, Sink.putLine, left]
  simp only [if_pos fits, Sink.put]

theorem put_cut {w : Writer} {room : Nat} (left : w.sink.room? = some room) {line : Line}
    (long : ¬ line.text.toUTF8.size ≤ room) :
    w.put [line] = ⟨{ w with sink := { w.sink with
      cut := w.sink.cut ++ line.text.toUTF8.extract 0 room, room? := some 0 } },
      some (.write .sinkFull)⟩ := by
  apply put_of_cut
  rw [Sink.put, Sink.putLine, left]
  simp only [if_neg long]

/-- A line fits, or its first bytes fill the stream up. -/
theorem follows_line {limit : Nat} {w limited : Writer} (unlimited : w.Unlimited)
    (step : InStep limit w limited) (line : Line) :
    Follows limit (w.put [line]) (limited.put [line]) := by
  have written := Sink.bytes_extend_line unlimited.whole line
  have size : (w.sink.extend [line]).bytes.size = w.sink.bytes.size + line.text.toUTF8.size := by
    rw [written, ByteArray.size_append]
  have before := step.fits
  rw [put_succeeded unlimited.room]
  by_cases fits : line.text.toUTF8.size ≤ limit - w.sink.bytes.size
  · rw [put_fitting step.room fits]
    refine .inStep ⟨step.scope, step.annotate, ?_, step.whole, ?_, ?_⟩ rfl
    · simp only [step.lines, Sink.extend]
      rfl
    · dsimp only
      rw [size, Nat.sub_sub]
    · dsimp only
      omega
  · rw [put_cut step.room fits]
    refine .cutOff ⟨rfl, ?_, ?_⟩ rfl
    · have taken := step.bytes unlimited
      rw [Sink.bytes, step.whole, ByteArray.append_empty] at taken
      have all : w.sink.bytes.extract 0 limit = w.sink.bytes := by
        rw [← Nat.max_eq_left before, ByteArray.extract_zero_max_size]
      have text (cut : ByteArray) (room? : Option Nat) :
          ({ limited.sink with cut := cut, room? := room? } : Sink).text = limited.sink.text := rfl
      rw [Sink.bytes, text, taken, step.whole, ByteArray.empty_append, written,
        ByteArray.extract_append, all, Nat.zero_sub]
    · dsimp only
      omega

theorem truncates_put (lines : List Line) : Truncates fun w => w.put lines := by
  induction lines with
  | nil => exact truncates_ended none
  | cons line rest ih =>
    have single : Truncates fun w => w.put [line] := by
      refine ⟨?_, ?_, fun _ _ _ unlimited step => follows_line unlimited step line⟩
      · intro w unlimited
        exact ⟨[line], by rw [put_succeeded unlimited.room]⟩
      · intro w full
        rw [put_writer]
        exact Sink.put_full full [line]
    simp only [put_cons _ line rest]
    exact single.andThen ih

/-- Of code that is sent out a full stream shows a part. Where the work is by then does not matter. -/
theorem follows_sends {limit : Nat} {w limited : Writer} {work : Writing Unit}
    {code : List Assembly.Instruction} {t : Scope} (unlimited : w.Unlimited)
    (step : InStep limit w limited) (sends : Writing.Sends work w.scope code (.ok ()) t) :
    Follows limit (work.outcome w) (work.outcome limited) := by
  have put := (truncates_put (code.map .code)).follows limit w limited unlimited step
  have sends' : Writing.Sends work limited.scope code (.ok ()) t := step.scope.symm ▸ sends
  rw [put_succeeded unlimited.room] at put
  rw [sends.outcome_of_taken (Sink.put_of_unlimited w.sink unlimited.room _)]
  cases taken : limited.sink.put (code.map .code) with
  | mk sink fits =>
    cases fits with
    | true =>
      rw [put_of_taken taken] at put
      rw [sends'.outcome_of_taken taken]
      cases put with
      | inStep step same =>
        exact .inStep (step.settle t) rfl
      | cutOff cut failed => contradiction
    | false =>
      obtain ⟨between, stopped⟩ := sends'.outcome_of_cut taken
      rw [put_of_cut taken] at put
      rw [stopped]
      cases put with
      | inStep step same => contradiction
      | cutOff cut failed => exact .cutOff ⟨cut.full, cut.bytes, cut.missed⟩ rfl

/-- What sends out code, or refuses to before anything is sent. -/
theorem truncates_sends {work : Writing Unit}
    (each : ∀ s, (∃ code t, Writing.Sends work s code (.ok ()) t) ∨
      ∃ e t, Writing.Sends work s [] (.error e) t) :
    Truncates work.outcome where
  adds w unlimited := by
    obtain ⟨code, t, sends⟩ | ⟨e, t, refuses⟩ := each w.scope
    · rw [sends.outcome_of_taken (Sink.put_of_unlimited w.sink unlimited.room _)]
      exact ⟨code.map .code, rfl⟩
    · rw [refuses.outcome_of_refused]
      exact ⟨[], (extend_nil w.sink).symm⟩
  full w full := by
    obtain ⟨code, t, sends⟩ | ⟨e, t, refuses⟩ := each w.scope
    · have kept := Sink.put_full full (code.map .code)
      cases taken : w.sink.put (code.map .code) with
      | mk sink fits =>
        rw [taken] at kept
        cases fits with
        | true => rw [sends.outcome_of_taken taken, ← kept]
        | false =>
          obtain ⟨between, cut⟩ := sends.outcome_of_cut taken
          rw [cut, ← kept]
    · rw [refuses.outcome_of_refused]
  follows limit w limited unlimited step := by
    obtain ⟨code, t, sends⟩ | ⟨e, t, refuses⟩ := each w.scope
    · exact follows_sends unlimited step sends
    · have refuses' : Writing.Sends work limited.scope [] (.error e) t :=
        step.scope.symm ▸ refuses
      rw [refuses.outcome_of_refused, refuses'.outcome_of_refused]
      exact .inStep (step.settle t) rfl

theorem truncates_bootstrap : Truncates bootstrap :=
  truncates_sends fun s => .inl ⟨_, _, Writing.sends_bootstrap s⟩

theorem truncates_emit (i : Vm.Instruction) : Truncates (emit · i) := by
  refine truncates_sends fun s => ?_
  have sends := Writing.sends_instruction i s
  cases generated : (s.entering i).generate i with
  | error e =>
    rw [generated] at sends
    exact .inr ⟨e, _, sends⟩
  | ok result =>
    rw [generated] at sends
    exact .inl ⟨_, _, sends⟩

theorem truncates_command (i : Vm.Instruction) : Truncates (command · i) := by
  have each (_ : Scope) (annotate : Bool) : Truncates fun w =>
      (w.put (if annotate then [.comment i] else [])).andThen (emit · i) :=
    (truncates_put _).andThen (truncates_emit i)
  exact truncates_reading each

theorem truncates_commands (instructions : List Vm.Instruction) :
    Truncates (commands · instructions) := by
  induction instructions with
  | nil => exact truncates_ended none
  | cons i rest ih =>
    simp only [commands_cons _ i rest]
    exact (truncates_command i).andThen ih

theorem truncates_unit (source : String) : Truncates (unit · source) :=
  (truncates_commands _).andThen (truncates_ended _)

theorem truncates_setFileName (name : String) :
    Truncates fun w => ⟨w.setFileName name, none⟩ :=
  truncates_reading fun scope _ => truncates_settle { scope with fileName := name } none

theorem truncates_units (units : List (String × String)) : Truncates fun w => w.units units := by
  induction units with
  | nil => exact truncates_ended none
  | cons unit rest ih =>
    simp only [units_cons _ unit rest]
    exact ((truncates_setFileName unit.1).andThen (truncates_unit unit.2)).andThen ih

theorem truncates_call (call : Call) : Truncates (Writer.call · call) := by
  cases call with
  | unit source => exact truncates_unit source
  | perform operation =>
    cases operation with
    | setFileName name => exact truncates_setFileName name
    | bootstrap => exact truncates_bootstrap
    | emit i => exact truncates_emit i
    | command i => exact truncates_command i

theorem Unlimited.calls {w : Writer} (unlimited : w.Unlimited) (calls : List Call) :
    (w.afterCalls calls).Unlimited := by
  induction calls generalizing w with
  | nil => exact unlimited
  | cons call rest ih =>
    obtain ⟨lines, more⟩ := (truncates_call call).adds w unlimited
    exact ih (unlimited.extend more)

theorem CutOff.calls {limit : Nat} {w limited : Writer} (cutOff : CutOff limit w limited)
    (unlimited : w.Unlimited) (calls : List Call) :
    CutOff limit (w.afterCalls calls) (limited.afterCalls calls) := by
  induction calls generalizing w limited with
  | nil => exact cutOff
  | cons call rest ih =>
    obtain ⟨lines, more⟩ := (truncates_call call).adds w unlimited
    have same := (truncates_call call).full limited cutOff.full
    exact ih (cutOff.extend unlimited more same) (unlimited.extend more)

/-- An answer that blames the stream. -/
def streamFailed : Option Vm.Error → Bool
  | some (.write _) => true
  | _ => false

/-- Two writers stay in step, with the same answers, or get out of step at an answer that blames the
stream. -/
theorem follows_calls {limit : Nat} {w limited : Writer} (unlimited : w.Unlimited)
    (step : InStep limit w limited) (calls : List Call) :
    (limited.answers calls).takeWhile (!streamFailed ·) <+: w.answers calls ∧
      (InStep limit (w.afterCalls calls) (limited.afterCalls calls) ∨
        CutOff limit (w.afterCalls calls) (limited.afterCalls calls) ∧
          ∃ answer ∈ limited.answers calls, streamFailed answer) := by
  induction calls generalizing w limited with
  | nil => exact ⟨List.prefix_refl _, .inl step⟩
  | cons call rest ih =>
    obtain ⟨lines, more⟩ := (truncates_call call).adds w unlimited
    rw [answers, answers]
    cases (truncates_call call).follows limit w limited unlimited step with
    | inStep step same =>
      obtain ⟨alike, ended⟩ := ih (unlimited.extend more) step
      constructor
      · rw [List.takeWhile_cons, same]
        split
        · exact (List.prefix_cons_inj _).mpr alike
        · exact List.nil_prefix
      · apply ended.imp_right
        rintro ⟨cut, answer, member, failed⟩
        exact ⟨cut, answer, List.mem_cons_of_mem _ member, failed⟩
    | cutOff cut failed =>
      constructor
      · rw [failed]
        exact List.nil_prefix
      · refine .inr ⟨cut.calls (unlimited.extend more) rest, _, List.mem_cons_self, ?_⟩
        rw [failed]
        rfl

end Writer

open Writer (Call streamFailed)

/-- A stream with a limit ends up with the first bytes of what the same calls write to one without,
as many as there is room for. Up to the first answer that blames the stream all answers are the same;
and there is one if bytes are missing. -/
theorem full_stream_truncates (limit : Nat) (annotate : Bool) (calls : List Call) :
    let unlimited := Writer.new (.empty none) annotate
    let limited := Writer.new (.empty (some limit)) annotate
    let all := (unlimited.afterCalls calls).sink.bytes
    (limited.afterCalls calls).sink.bytes = all.extract 0 (min limit all.size) ∧
      (limited.answers calls).takeWhile (!streamFailed ·) <+: unlimited.answers calls ∧
      (limit < all.size → ∃ answer ∈ limited.answers calls, streamFailed answer) := by
  intro unlimited limited all
  have start : unlimited.Unlimited := ⟨rfl, rfl⟩
  have step : Writer.InStep limit unlimited limited := ⟨rfl, rfl, rfl, rfl, rfl, Nat.zero_le _⟩
  obtain ⟨alike, step | ⟨cut, failed⟩⟩ := Writer.follows_calls start step calls
  · refine ⟨?_, alike, fun missing => absurd step.fits (Nat.not_le_of_lt missing)⟩
    rw [Nat.min_eq_right step.fits, ByteArray.extract_zero_size]
    exact step.bytes (start.calls calls)
  · refine ⟨?_, alike, fun _ => failed⟩
    rw [Nat.min_eq_left cut.missed.le, cut.bytes]

end HackToolchain.Codegen
