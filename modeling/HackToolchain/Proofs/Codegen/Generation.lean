import HackToolchain.Codegen.Writer

/-! The code of an instruction as a whole. What a writer does step by step for an instruction is to send
out that code, or to refuse the instruction before anything else is done. -/
namespace HackToolchain.Codegen

open Assembly (Instruction Jump)
open Vm (CodeError)

def comparison (label : Nat) (test : Jump) : List Instruction :=
  binary .m .minus .d ++ truth label (label + 1) test ++ push .d

/-- The code of an arithmetic command when `label` is the next unused label number. -/
def arithmetic (label : Nat) : Vm.ArithmeticOp → List Instruction
  | .add => binary .d .plus .m ++ push .d
  | .sub => binary .m .minus .d ++ push .d
  | .and => binary .d .and .m ++ push .d
  | .or => binary .d .or .m ++ push .d
  | .neg => unary .minus
  | .not => unary .not
  | .eq => comparison label .eq
  | .gt => comparison label .gt
  | .lt => comparison label .lt

/-- How many label numbers an arithmetic command uses. -/
def labelCount : Vm.ArithmeticOp → Nat
  | .eq | .gt | .lt => 2
  | _ => 0

def pushFrom (index : UInt16) : Place → Except CodeError (List Instruction)
  | .literal =>
    if index.toNat ≤ Assembly.maxAddress then .ok ([constant index.toNat, copy toD .a] ++ push .d)
    else .error (.indexOutOfRange .constant index)
  | .based register => .ok (loadBased index.toNat register ++ push .d)
  | .named symbol => .ok (loadD symbol ++ push .d)

/-- The address is computed before the stack is lowered. -/
def popInto (index : UInt16) : Place → Except CodeError (List Instruction)
  | .literal => .error .popConstant
  | .based register => .ok (addressBased index.toNat register ++ popD ++ storeKept)
  | .named symbol => .ok (popD ++ storeD symbol)

def enter (function : String) (locals : Nat) : List Instruction :=
  .label function :: zeros locals

def start (label : Nat) : List Instruction :=
  setStack ++ call label entryFunction 0

namespace Scope

/-- Takes a label that the program chose; each can be taken once. -/
def define (s : Scope) (symbol : String) : Except CodeError Scope :=
  if s.defined.contains symbol then .error (.duplicateLabel symbol)
  else .ok { s with defined := s.defined.insert symbol }

/-- The current function changes with a function command, whether or not its name is free. -/
def entering (s : Scope) : Vm.Instruction → Scope
  | .function name _ => { s with function? := some name }
  | _ => s

/-- The code of an instruction, and the scope after it. -/
def generate (s : Scope) : Vm.Instruction → Except CodeError (List Instruction × Scope)
  | .arithmetic op =>
    .ok (arithmetic s.nextLabel op, { s with nextLabel := s.nextLabel + labelCount op })
  | .push segment index => do
    return (← pushFrom index (← place s.fileName segment index), s)
  | .pop segment index => do
    return (← popInto index (← place s.fileName segment index), s)
  | .label label => do
    return ([.label (s.symbol label)], ← s.define (s.symbol label))
  | .goto label => .ok (jumpTo (s.symbol label), s)
  | .ifGoto label => .ok (popD ++ jumpIf (s.symbol label) .d .ne, s)
  | .function name locals => do
    return (enter name locals.toNat, ← s.define name)
  | .call function arguments =>
    if arguments.toNat + frameSize ≤ Assembly.maxAddress then
      .ok (call s.nextLabel function arguments.toNat, { s with nextLabel := s.nextLabel + 1 })
    else .error (.tooManyArguments function)
  | .return => .ok (leave, s)

/-- The code that starts a program. -/
def bootstrap (s : Scope) : List Instruction × Scope :=
  (start s.nextLabel, { s with nextLabel := s.nextLabel + 1 })

end Scope

theorem Sink.put_append (s : Sink) (first second : List Line) :
    s.put (first ++ second) = match s.put first with
      | (taken, true) => taken.put second
      | (taken, false) => (taken, false) := by
  induction first generalizing s with
  | nil => rfl
  | cons line rest ih =>
    simp only [List.cons_append, put]
    cases s.putLine line with
    | mk taken fits =>
      cases fits with
      | true => exact ih taken
      | false => rfl

namespace Writing

variable {α β : Type} {s t u : Scope} {code more : List Instruction}

/-- Where work ends that has nothing more to send out. -/
def ended : Except CodeError α → Writer → EStateM.Result Vm.Error Writer α
  | .ok a, w => .ok a w
  | .error e, w => .error (.code e) w

/-- Work sends out code and ends as said in another scope, if the stream takes all of the code. If not,
it fails for that, wherever it is by then. -/
def Sends (work : Writing α) (s : Scope) (code : List Instruction) (result : Except CodeError α)
    (t : Scope) : Prop :=
  ∀ (sink : Sink) (annotate : Bool),
    match sink.put (code.map .code) with
    | (taken, true) => work ⟨s, sink, annotate⟩ = ended result ⟨t, taken, annotate⟩
    | (taken, false) => ∃ between,
      work ⟨s, sink, annotate⟩ = .error (.write .sinkFull) ⟨between, taken, annotate⟩

theorem sends_refuse (e : CodeError) (s : Scope) :
    Sends (refuse e : Writing α) s [] (.error e) s :=
  fun _ _ => rfl

theorem sends_write (code : List Instruction) (s : Scope) : Sends (write code) s code (.ok ()) s := by
  intro sink annotate
  simp only [write, send]
  cases sink.put (code.map .code) with
  | mk taken fits =>
    cases fits with
    | true => rfl
    | false => exact ⟨s, rfl⟩

theorem sends_drawLabel (s : Scope) :
    Sends drawLabel s [] (.ok s.nextLabel) { s with nextLabel := s.nextLabel + 1 } :=
  fun _ _ => rfl

theorem sends_labelSymbol (label : String) (s : Scope) :
    Sends (labelSymbol label) s [] (.ok (s.symbol label)) s :=
  fun _ _ => rfl

theorem sends_checked (answer : Except CodeError α) (s : Scope) :
    Sends (checked answer) s [] answer s := by
  cases answer with
  | ok a => exact fun _ _ => rfl
  | error e => exact sends_refuse e s

theorem sends_cell (segment : Vm.Segment) (index : UInt16) (s : Scope) :
    Sends (cell segment index) s [] (place s.fileName segment index) s :=
  sends_checked (place s.fileName segment index) s

namespace Sends

/-- Code is sent out piece by piece. -/
theorem bind {work : Writing α} {next : α → Writing β} {a : α} {result : Except CodeError β}
    (first : Sends work s code (.ok a) t) (later : Sends (next a) t more result u) :
    Sends (work >>= next) s (code ++ more) result u := by
  intro sink annotate
  have first := first sink annotate
  rw [List.map_append, Sink.put_append]
  cases taken : sink.put (code.map .code) with
  | mk between fits =>
    rw [taken] at first
    cases fits with
    | true =>
      have bound : (work >>= next) ⟨s, sink, annotate⟩ = next a ⟨t, between, annotate⟩ := by
        simp only [Bind.bind, EStateM.bind, first, ended]
      simp only [bound]
      exact later between annotate
    | false =>
      obtain ⟨scope, failed⟩ := first
      exact ⟨scope, by simp only [Bind.bind, EStateM.bind, failed]⟩

/-- Nothing is done after a refusal. -/
theorem bind_refused {work : Writing α} {next : α → Writing β} {e : CodeError}
    (first : Sends work s code (.error e) t) : Sends (work >>= next) s code (.error e) t := by
  intro sink annotate
  have first := first sink annotate
  cases taken : sink.put (code.map .code) with
  | mk between fits =>
    rw [taken] at first
    cases fits with
    | true => simp only [Bind.bind, EStateM.bind, first, ended]
    | false =>
      obtain ⟨scope, failed⟩ := first
      exact ⟨scope, by simp only [Bind.bind, EStateM.bind, failed]⟩

/-- Before any code is sent out. -/
theorem bind_silent {work : Writing α} {next : α → Writing β} {a : α} {result : Except CodeError β}
    (first : Sends work s [] (.ok a) t) (later : Sends (next a) t code result u) :
    Sends (work >>= next) s code result u :=
  first.bind later

/-- Code that goes out in two pieces. -/
theorem write_bind {next : Unit → Writing β} {result : Except CodeError β}
    (later : Sends (next ()) s more result t) :
    Sends (write code >>= next) s (code ++ more) result t :=
  (sends_write code s).bind later

end Sends

theorem sends_enter (function : String) (s : Scope) :
    Sends (enter function) s [] (.ok ()) { s with function? := some function } :=
  fun _ _ => rfl

theorem take_eq (symbol : String) (w : Writer) :
    take symbol w = if w.scope.defined.contains symbol then .ok false w
      else .ok true { w with scope.defined := w.scope.defined.insert symbol } :=
  apply_ite (fun answer : Bool × Writer => EStateM.Result.ok answer.1 answer.2) _ _ _

theorem sends_take_of_taken {symbol : String} {s : Scope}
    (taken : s.defined.contains symbol = true) : Sends (take symbol) s [] (.ok false) s :=
  fun _ _ => (take_eq symbol _).trans (if_pos taken)

theorem sends_take_of_free {symbol : String} {s : Scope}
    (free : s.defined.contains symbol = false) :
    Sends (take symbol) s [] (.ok true) { s with defined := s.defined.insert symbol } :=
  fun _ _ => (take_eq symbol _).trans (if_neg (ne_true_of_eq_false free))

theorem sends_define_of_taken {symbol : String} {s : Scope}
    (taken : s.defined.contains symbol = true) :
    Sends (define symbol) s [] (.error (.duplicateLabel symbol)) s :=
  (sends_take_of_taken taken).bind_silent (sends_refuse (.duplicateLabel symbol) s)

theorem sends_define_of_free {symbol : String} {s : Scope}
    (free : s.defined.contains symbol = false) :
    Sends (define symbol) s [.label symbol] (.ok ())
      { s with defined := s.defined.insert symbol } :=
  (sends_take_of_free free).bind_silent (sends_write [.label symbol] _)

theorem sends_compare (test : Jump) (s : Scope) :
    Sends (compare test) s (comparison s.nextLabel test) (.ok ())
      { s with nextLabel := s.nextLabel + 2 } := by
  rw [comparison, List.append_assoc]
  exact .write_bind <| (sends_drawLabel s).bind_silent <| (sends_drawLabel _).bind_silent <|
    .write_bind <| sends_write (push .d) _

theorem sends_arithmetic (op : Vm.ArithmeticOp) (s : Scope) :
    Sends (arithmetic op) s (Codegen.arithmetic s.nextLabel op) (.ok ())
      { s with nextLabel := s.nextLabel + labelCount op } := by
  cases op with
  | eq | gt | lt => exact sends_compare _ s
  | _ => exact sends_write _ s

/-- Work does what the code of an instruction as a whole says, or refuses where there is none. -/
def Performs (work : Writing Unit) (s : Scope)
    (whole : Except CodeError (List Instruction × Scope)) : Prop :=
  match whole with
  | .ok (code, t) => Sends work s code (.ok ()) t
  | .error e => Sends work s [] (.error e) s

/-- Only constants are what their index says. -/
theorem eq_constant_of_place {fileName : String} {segment : Vm.Segment} {index : UInt16}
    (found : place fileName segment index = .ok .literal) : segment = .constant := by
  cases segment with
  | constant => rfl
  | static => cases found
  | _ =>
    simp only [place] at found
    split at found <;> cases found

/-- The cell is looked for before anything is written. -/
theorem performs_cell {segment : Vm.Segment} {index : UInt16} {s : Scope}
    {next : Place → Writing Unit} {whole : Place → Except CodeError (List Instruction)}
    (each : ∀ found, place s.fileName segment index = .ok found →
      Performs (next found) s (do return (← whole found, s))) :
    Performs (cell segment index >>= next) s
      (do return (← whole (← place s.fileName segment index), s)) := by
  have looked := sends_cell segment index s
  cases found : place s.fileName segment index with
  | error e =>
    rw [found] at looked
    exact looked.bind_refused
  | ok cell =>
    rw [found] at looked
    have performs := each cell found
    simp only [Bind.bind, Except.bind] at performs ⊢
    cases generated : whole cell with
    | error e =>
      have refuses : Sends (next cell) s [] (.error e) s := by rwa [generated] at performs
      exact looked.bind_silent refuses
    | ok code =>
      have sends : Sends (next cell) s code (.ok ()) s := by rwa [generated] at performs
      exact looked.bind_silent sends

theorem performs_pushCell (segment : Vm.Segment) (index : UInt16) (s : Scope) :
    Performs (pushCell segment index) s (s.generate (.push segment index)) := by
  refine performs_cell fun cell found => ?_
  cases cell with
  | literal =>
    obtain rfl := eq_constant_of_place found
    by_cases small : index.toNat ≤ Assembly.maxAddress
    · simp only [pushFrom, if_pos small, if_neg (Nat.not_lt_of_le small)]
      exact .write_bind (sends_write _ s)
    · simp only [pushFrom, if_neg small, if_pos (Nat.lt_of_not_le small)]
      exact (sends_refuse _ s).bind_refused
  | based register => exact .write_bind (sends_write _ s)
  | named symbol => exact .write_bind (sends_write _ s)

theorem performs_popCell (segment : Vm.Segment) (index : UInt16) (s : Scope) :
    Performs (popCell segment index) s (s.generate (.pop segment index)) := by
  refine performs_cell fun cell _ => ?_
  cases cell with
  | literal => exact sends_refuse .popConstant s
  | based register =>
    have stores : Sends (write (addressBased index.toNat register) >>= fun _ =>
        write popD >>= fun _ => write storeKept) s
        (addressBased index.toNat register ++ (popD ++ storeKept)) (.ok ()) s :=
      .write_bind (.write_bind (sends_write storeKept s))
    rwa [← List.append_assoc] at stores
  | named symbol => exact .write_bind (sends_write _ s)

theorem performs_callFunction (function : String) (arguments : UInt16) (s : Scope) :
    Performs (callFunction function arguments) s (s.generate (.call function arguments)) := by
  by_cases fits : arguments.toNat + frameSize ≤ Assembly.maxAddress
  · simp only [Scope.generate, callFunction, if_pos fits, if_neg (Nat.not_lt_of_le fits)]
    exact (sends_drawLabel s).bind_silent (sends_write _ _)
  · simp only [Scope.generate, callFunction, if_neg fits, if_pos (Nat.lt_of_not_le fits)]
    exact (sends_refuse _ s).bind_refused

/-- The function is entered first, and stays entered if its name is taken. -/
theorem sends_enterFunction (name : String) (locals : UInt16) (s : Scope) :
    match (s.entering (.function name locals)).generate (.function name locals) with
    | .ok (code, t) => Sends (enterFunction name locals) s code (.ok ()) t
    | .error e => Sends (enterFunction name locals) s [] (.error e)
        (s.entering (.function name locals)) := by
  have entered := sends_enter name s
  cases taken : s.defined.contains name with
  | true =>
    simp only [Scope.generate, Scope.entering, Scope.define, taken, if_true]
    refine entered.bind_silent ?_
    exact (sends_define_of_taken (s := s.entering (.function name locals)) taken).bind_refused
  | false =>
    simp only [Scope.generate, Scope.entering, Scope.define, taken, Bool.false_eq_true, if_false]
    refine entered.bind_silent ?_
    exact (sends_define_of_free (s := s.entering (.function name locals)) taken).bind
      (sends_write (zeros locals.toNat) _)

theorem performs_label (label : String) (s : Scope) :
    Performs (instruction (.label label)) s (s.generate (.label label)) := by
  have named := sends_labelSymbol label s
  cases taken : s.defined.contains (s.symbol label) with
  | true =>
    simp only [Scope.generate, Scope.define, taken, if_true]
    exact named.bind_silent (sends_define_of_taken taken)
  | false =>
    simp only [Scope.generate, Scope.define, taken, Bool.false_eq_true, if_false]
    exact named.bind_silent (sends_define_of_free taken)

/-- What is done for an instruction is to send out its code, or to refuse it before anything else is
done but to enter a function. -/
theorem sends_instruction (i : Vm.Instruction) (s : Scope) :
    match (s.entering i).generate i with
    | .ok (code, t) => Sends (instruction i) s code (.ok ()) t
    | .error e => Sends (instruction i) s [] (.error e) (s.entering i) := by
  cases i with
  | arithmetic op => exact sends_arithmetic op s
  | push segment index => exact performs_pushCell segment index s
  | pop segment index => exact performs_popCell segment index s
  | label label => exact performs_label label s
  | goto label => exact (sends_labelSymbol label s).bind_silent (sends_write _ s)
  | ifGoto label =>
    exact .write_bind ((sends_labelSymbol label s).bind_silent (sends_write _ s))
  | function name locals => exact sends_enterFunction name locals s
  | call function arguments => exact performs_callFunction function arguments s
  | «return» => exact sends_write leave s

theorem sends_bootstrap (s : Scope) :
    Sends bootstrap s s.bootstrap.1 (.ok ()) s.bootstrap.2 :=
  .write_bind (performs_callFunction entryFunction 0 s)

namespace Sends

variable {work : Writing Unit} {w : Writer} {taken : Sink}

theorem outcome_of_taken (sends : Sends work w.scope code (.ok ()) t)
    (whole : w.sink.put (code.map .code) = (taken, true)) :
    work.outcome w = ⟨⟨t, taken, w.annotate⟩, none⟩ := by
  have done := sends w.sink w.annotate
  rw [whole] at done
  simp only [outcome, done, ended]

theorem outcome_of_cut (sends : Sends work w.scope code (.ok ()) t)
    (cut : w.sink.put (code.map .code) = (taken, false)) :
    ∃ between, work.outcome w = ⟨⟨between, taken, w.annotate⟩, some (.write .sinkFull)⟩ := by
  have failed := sends w.sink w.annotate
  rw [cut] at failed
  obtain ⟨between, failed⟩ := failed
  exact ⟨between, by simp only [outcome, failed]⟩

theorem outcome_of_refused {e : CodeError} (sends : Sends work w.scope [] (.error e) t) :
    work.outcome w = ⟨⟨t, w.sink, w.annotate⟩, some (.code e)⟩ := by
  have refused := sends w.sink w.annotate
  simp only [List.map_nil, Sink.put] at refused
  simp only [outcome, refused, ended]

end Sends

end Writing

namespace Writer

variable {w : Writer} {i : Vm.Instruction}

theorem put_of_taken {lines : List Line} {sink : Sink} (whole : w.sink.put lines = (sink, true)) :
    w.put lines = ⟨⟨w.scope, sink, w.annotate⟩, none⟩ := by
  simp only [put, Writing.outcome, Writing.send, whole]

theorem put_of_cut {lines : List Line} {sink : Sink} (cut : w.sink.put lines = (sink, false)) :
    w.put lines = ⟨⟨w.scope, sink, w.annotate⟩, some (.write .sinkFull)⟩ := by
  simp only [put, Writing.outcome, Writing.send, cut]

theorem emit_of_error {e : CodeError} (refused : (w.scope.entering i).generate i = .error e) :
    w.emit i = ⟨⟨w.scope.entering i, w.sink, w.annotate⟩, some (.code e)⟩ := by
  have sends := Writing.sends_instruction i w.scope
  rw [refused] at sends
  exact sends.outcome_of_refused

theorem sends_of_ok {code : List Instruction} {t : Scope}
    (generated : (w.scope.entering i).generate i = .ok (code, t)) :
    Writing.Sends (Writing.instruction i) w.scope code (.ok ()) t := by
  have sends := Writing.sends_instruction i w.scope
  rwa [generated] at sends

/-- An instruction fails because it has no code, or because the stream is full. -/
theorem emit_failed {e : Vm.Error} (failed : (w.emit i).failure? = some e) :
    (∃ fault, (w.scope.entering i).generate i = .error fault ∧ e = .code fault) ∨
      e = .write .sinkFull := by
  cases generated : (w.scope.entering i).generate i with
  | error fault =>
    rw [emit_of_error generated] at failed
    exact .inl ⟨fault, rfl, (Option.some.inj failed).symm⟩
  | ok result =>
    have sends := sends_of_ok generated
    cases taken : w.sink.put (result.1.map .code) with
    | mk sink fits =>
      cases fits with
      | true =>
        rw [emit, sends.outcome_of_taken taken] at failed
        contradiction
      | false =>
        obtain ⟨between, cut⟩ := sends.outcome_of_cut taken
        rw [emit, cut] at failed
        exact .inr (Option.some.inj failed).symm

end Writer

end HackToolchain.Codegen
