import HackToolchain.Proofs.Codegen.Uniqueness

/-! Labels belong to the function that was entered last, in whichever unit, or to the unit as long as
no function has been entered at all. A label's symbol shows the name of its region but not its kind,
so a function and a unit of one name share their labels. -/
namespace HackToolchain.Codegen

open Assembly (Instruction)
open Writer (Operation)

/-- What labels belong to. -/
inductive Region where
  | file (name : String)
  | function (name : String)
  deriving DecidableEq

namespace Region

def name : Region → String
  | .file name | .function name => name

/-- What a label of the region is called in assembly. -/
def symbol (region : Region) (label : String) : String :=
  region.name ++ "$" ++ label

def entering (region : Region) : Vm.Instruction → Region
  | .function name _ => .function name
  | _ => region

/-- The region after an operation. A function reaches to the next one, across units. -/
def next (region : Region) : Operation → Region
  | .setFileName name =>
    match region with
    | .file _ => .file name
    | .function _ => region
  | .bootstrap => region
  | .emit i | .command i => region.entering i

/-- The region after an operation, if every unit were to start outside any function. -/
def nextInUnit (region : Region) : Operation → Region
  | .setFileName name => .file name
  | operation => region.next operation

/-- What a label or a jump in the region is to be written as. -/
def code? (region : Region) : Vm.Instruction → Option (List Instruction)
  | .label name => some [.label (region.symbol name)]
  | .goto name => some (jumpTo (region.symbol name))
  | .ifGoto name => some (popD ++ jumpIf (region.symbol name) .d .ne)
  | _ => none

end Region

namespace Writer.Operation

def label? (operation : Operation) : Option String :=
  match operation.instruction? with
  | some (.label name) => some name
  | _ => none

def function? (operation : Operation) : Option String :=
  match operation.instruction? with
  | some (.function name _) => some name
  | _ => none

end Writer.Operation

/-- The region after operations. -/
def regionAfter (operations : List Operation) : Region :=
  operations.foldl Region.next (.file "")

/-- The label commands of operations, each with its region. -/
def labelsFrom (next : Region → Operation → Region) (region : Region) :
    List Operation → List (Region × String)
  | [] => []
  | operation :: rest =>
    (operation.label?.map (region, ·)).toList ++ labelsFrom next (next region operation) rest

/-- The label commands of a run, each with its region. -/
def scopedLabels (operations : List Operation) : List (Region × String) :=
  labelsFrom Region.next (.file "") operations

/-- The function commands of a run. -/
def functionsOf (operations : List Operation) : List String :=
  operations.filterMap Operation.function?

theorem Region.symbol_injective {region other : Region} {label label' : String}
    (plain : '$' ∉ label.toList) (plain' : '$' ∉ label'.toList)
    (same : region.symbol label = other.symbol label') :
    region.name = other.name ∧ label = label' := by
  have text := congrArg String.toList same
  simp only [symbol, String.toList_append, List.append_assoc] at text
  obtain ⟨names, labels⟩ := split_last plain plain' text
  exact ⟨String.toList_inj.mp names, String.toList_inj.mp labels⟩

/-- Regions of one name are the same, or they are a unit and a function. -/
theorem Region.name_cases {region other : Region} (same : region.name = other.name) :
    region = other ∨ ∃ name, region = .file name ∧ other = .function name ∨
      region = .function name ∧ other = .file name := by
  cases region with
  | file name =>
    cases other with
    | file other => exact .inl (congrArg _ same)
    | function other => exact .inr ⟨name, .inl ⟨rfl, congrArg _ same.symm⟩⟩
  | function name =>
    cases other with
    | file other => exact .inr ⟨name, .inr ⟨rfl, congrArg _ same.symm⟩⟩
    | function other => exact .inl (congrArg _ same)

def Scope.region (s : Scope) : Region :=
  match s.function? with
  | some name => .function name
  | none => .file s.fileName

theorem Scope.name_region (s : Scope) : s.region.name = s.name := by
  rw [region, name]
  cases s.function? <;> rfl

theorem region_entering (s : Scope) {operation : Operation} {i : Vm.Instruction}
    (given : operation.instruction? = some i) :
    (s.entering i).region = s.region.next operation := by
  have entered : (s.entering i).region = s.region.entering i := by
    cases i <;> rfl
  cases operation with
  | setFileName | bootstrap => contradiction
  | emit | command => exact Option.some.inj given ▸ entered

namespace Writer

theorem region_perform {w : Writer} (unlimited : w.sink.room? = none) (operation : Operation) :
    (w.perform operation).writer.scope.region = w.scope.region.next operation := by
  have effect := effect_perform unlimited operation
  generalize w.perform operation = o at effect
  cases effect with
  | named name =>
    simp only [setFileName, Scope.region, Region.next]
    cases w.scope.function? <;> rfl
  | started => rfl
  | @written operation i code scope given generated =>
    obtain ⟨file, function⟩ := generate_scope generated
    rw [← region_entering w.scope given, Scope.region, Scope.region, function, file]
  | @refused operation i e given failed => exact region_entering w.scope given

theorem region_after {w : Writer} (unlimited : w.sink.room? = none) (operations : List Operation) :
    (w.after operations).scope.region = operations.foldl Region.next w.scope.region := by
  induction operations generalizing w with
  | nil => rfl
  | cons operation rest ih =>
    rw [after_cons, ih ((effect_perform unlimited operation).unlimited unlimited),
      region_perform unlimited, List.foldl_cons]

end Writer

theorem region_run (annotate : Bool) (operations : List Operation) :
    ((Writer.new .unlimited annotate).after operations).scope.region = regionAfter operations :=
  Writer.region_after rfl operations

theorem symbol_run (annotate : Bool) (operations : List Operation) (label : String) :
    ((Writer.new .unlimited annotate).after operations).scope.symbol label =
      (regionAfter operations).symbol label := by
  rw [Scope.symbol, Region.symbol, ← region_run annotate, Scope.name_region]

theorem labelsFrom_append (next : Region → Operation → Region) (region : Region)
    (first second : List Operation) :
    labelsFrom next region (first ++ second) =
      labelsFrom next region first ++ labelsFrom next (first.foldl next region) second := by
  induction first generalizing region with
  | nil => rfl
  | cons operation rest ih =>
    rw [List.cons_append, labelsFrom, ih, labelsFrom, List.append_assoc, List.foldl_cons]

theorem label_scopedLabels {before later : List Operation} {operation : Operation} {label : String}
    (labels : operation.label? = some label) :
    scopedLabels (before ++ operation :: later) = scopedLabels before ++
      (regionAfter before, label) ::
        labelsFrom Region.next ((regionAfter before).next operation) later := by
  rw [scopedLabels, labelsFrom_append, labelsFrom, labels]
  rfl

theorem mem_scopedLabels {before later : List Operation} {operation : Operation} {label : String}
    (labels : operation.label? = some label) :
    (regionAfter before, label) ∈ scopedLabels (before ++ operation :: later) := by
  rw [label_scopedLabels labels]
  exact List.mem_append_right _ (.head _)

theorem map_labelsFrom (next : Region → Operation → Region) (region : Region)
    (operations : List Operation) :
    (labelsFrom next region operations).map Prod.snd =
      operations.filterMap Operation.label? := by
  induction operations generalizing region with
  | nil => rfl
  | cons operation rest ih =>
    rw [labelsFrom, List.map_append, ih, List.filterMap_cons]
    cases operation.label? <;> rfl

theorem functionsOf_append (first second : List Operation) :
    functionsOf (first ++ second) = functionsOf first ++ functionsOf second :=
  List.filterMap_append

theorem next_eq_function {region : Region} {operation : Operation} {name : String}
    (entered : region.next operation = .function name) :
    region = .function name ∨ operation.function? = some name := by
  have entering {i : Vm.Instruction} (given : operation.instruction? = some i)
      (entered : region.entering i = .function name) :
      region = .function name ∨ operation.function? = some name := by
    cases i with
    | function other locals =>
      rw [Operation.function?, given]
      exact .inr (congrArg some (Region.function.inj entered))
    | _ => exact .inl entered
  cases operation with
  | setFileName other =>
    cases region with
    | file => contradiction
    | function => exact .inl entered
  | bootstrap => exact .inl entered
  | emit i | command i => exact entering rfl entered

/-- A function that is being written has been entered. -/
theorem mem_functionsOf_of_region {operations : List Operation} {name : String}
    (region : regionAfter operations = .function name) : name ∈ functionsOf operations := by
  induction operations using List.reverseRecOn with
  | nil => contradiction
  | append_singleton before operation ih =>
    rw [regionAfter, List.foldl_append] at region
    rw [functionsOf_append]
    rcases next_eq_function region with before | here
    · exact List.mem_append_left _ (ih before)
    · exact List.mem_append_right _ (List.mem_filterMap.mpr ⟨operation, .head _, here⟩)

/-- What an operation defines is a label in its region or a function. -/
theorem defines_cases {annotate : Bool} {before : List Operation} {operation : Operation}
    {symbol : String}
    (defines : operation.defines? ((Writer.new .unlimited annotate).after before) = some symbol) :
    (∃ label, operation.label? = some label ∧ symbol = (regionAfter before).symbol label) ∨
      operation.function? = some symbol := by
  obtain ⟨i, given, chosen⟩ := Option.bind_eq_some_iff.mp defines
  cases i with
  | label name =>
    refine .inl ⟨name, by rw [Operation.label?, given], ?_⟩
    rw [← symbol_run annotate]
    exact (Option.some.inj chosen).symm
  | function name locals =>
    obtain rfl := Option.some.inj chosen
    exact .inr (by rw [Operation.function?, given])
  | _ => contradiction

theorem CodeOf.code_region {label : Nat} {file : String} {region : Region} {i : Vm.Instruction}
    {code written : List Instruction} (generated : CodeOf label file region.name i written)
    (coded : region.code? i = some code) : written = code := by
  cases generated with
  | label | goto | ifGoto => exact Option.some.inj coded
  | arithmetic | function | call | «return» => contradiction
  | pushConstant | pushBased | pushNamed | popBased | popNamed => contradiction

theorem entering_of_code? {region : Region} {i : Vm.Instruction} {code : List Instruction}
    (coded : region.code? i = some code) (s : Scope) : s.entering i = s := by
  cases i <;> first | rfl | contradiction

/-- Jumps have code in every scope; a label can only be refused because it is taken. -/
theorem refused_of_code? {s : Scope} {i : Vm.Instruction} {code : List Instruction}
    {e : Vm.CodeError} (coded : s.region.code? i = some code) (failed : s.generate i = .error e) :
    ∃ label, i = .label label ∧ e = .duplicateLabel (s.region.symbol label) := by
  cases i with
  | goto | ifGoto => contradiction
  | label label =>
    refine ⟨label, rfl, ?_⟩
    rw [Region.symbol, Scope.name_region]
    by_cases taken : s.symbol label ∈ s.defined
    · have refused : s.generate (.label label) = .error (.duplicateLabel (s.symbol label)) :=
        generate_duplicate.mpr ⟨rfl, taken⟩
      exact Except.error.inj (failed.symm.trans refused)
    · simp [Scope.generate, define_of_not_mem taken, bind, Except.bind, pure, Except.pure] at failed
  | _ => contradiction

theorem Writer.perform_code {w : Writer} (unlimited : w.sink.room? = none) {operation : Operation}
    {i : Vm.Instruction} {code : List Instruction} (given : operation.instruction? = some i)
    (coded : w.scope.region.code? i = some code) :
    (w.perform operation).failure? = none ∧
        (w.perform operation).writer.sink.code = w.sink.code ++ code ∨
      ∃ label, i = .label label ∧ (w.perform operation).failure? =
        some (.code (.duplicateLabel (w.scope.region.symbol label))) := by
  have effect := effect_perform unlimited operation
  generalize w.perform operation = o at effect
  cases effect with
  | named | started => contradiction
  | @written operation j written scope given' generated =>
    obtain rfl := Option.some.inj (given'.symm.trans given)
    rw [entering_of_code? coded] at generated
    have generated := codeOf_generate generated
    rw [← Scope.name_region] at generated
    obtain rfl := generated.code_region coded
    left
    constructor
    · rfl
    · rw [Sink.code_extend, List.filterMap_append, code_comment, List.nil_append, code_map]
  | @refused operation j e given' failed =>
    obtain rfl := Option.some.inj (given'.symm.trans given)
    rw [entering_of_code? coded] at failed
    obtain ⟨label, rfl, rfl⟩ := refused_of_code? coded failed
    exact .inr ⟨label, rfl, rfl⟩

theorem named_programOperations {bootstrap : Bool} {units : List (String × String)}
    {operation : Operation} {i : Vm.Instruction}
    (member : operation ∈ Writer.programOperations bootstrap units)
    (given : operation.instruction? = some i) : i.Named := by
  rcases List.mem_append.mp member with start | member
  · split at start
    · obtain rfl := List.mem_singleton.mp start
      contradiction
    · contradiction
  · obtain ⟨unit, _, member⟩ := List.mem_flatMap.mp member
    rcases List.mem_cons.mp member with rfl | member
    · contradiction
    · obtain ⟨command, done, rfl⟩ := List.mem_map.mp member
      exact Option.some.inj given ▸ named_unitInstructions unit.2 command done

/-- The names in operations do not hold the sign that parts a label from its scope. -/
structure Plain (run : List Operation) : Prop where
  label : ∀ operation ∈ run, ∀ name, operation.label? = some name → '$' ∉ name.toList
  function : ∀ operation ∈ run, ∀ name, operation.function? = some name → '$' ∉ name.toList

theorem plain_programOperations (bootstrap : Bool) (units : List (String × String)) :
    Plain (Writer.programOperations bootstrap units) where
  label := by
    intro operation member name labels
    unfold Operation.label? at labels
    split at labels
    · rename_i given
      have named : Vm.isSymbol _ := named_programOperations member given
      exact Option.some.inj labels ▸ dollar_not_mem named
    · contradiction
  function := by
    intro operation member name enters
    unfold Operation.function? at enters
    split at enters
    · rename_i given
      have named : Vm.isSymbol _ := named_programOperations member given
      exact Option.some.inj enters ▸ dollar_not_mem named
    · contradiction

theorem Plain.scoped {run : List Operation} (plain : Plain run) {label : Region × String}
    (member : label ∈ scopedLabels run) : '$' ∉ label.2.toList := by
  have given : label.2 ∈ (scopedLabels run).map Prod.snd := List.mem_map_of_mem member
  rw [scopedLabels, map_labelsFrom] at given
  obtain ⟨operation, there, labels⟩ := List.mem_filterMap.mp given
  exact plain.label operation there _ labels

/-- Labels with one symbol have one name; they also have one region, unless one stands outside
functions and the other in a function that is called like the unit of the first. -/
theorem Plain.symbol_cases {run : List Operation} (plain : Plain run)
    {first second : Region × String} (here : first ∈ scopedLabels run)
    (there : second ∈ scopedLabels run) (same : first.1.symbol first.2 = second.1.symbol second.2) :
    first.2 = second.2 ∧ (first.1 = second.1 ∨
      ∃ name, first.1 = .file name ∧ second.1 = .function name ∨
        first.1 = .function name ∧ second.1 = .file name) := by
  obtain ⟨names, labels⟩ := Region.symbol_injective (plain.scoped here) (plain.scoped there) same
  exact ⟨labels, Region.name_cases names⟩

/-- No operation of a run defines what another has defined, if no label is repeated in its region, no
function is entered twice and none is called like a unit with labels outside functions. -/
theorem Plain.defines_once {annotate : Bool} {earlier between later : List Operation}
    {other operation : Operation} {symbol : String} {run : List Operation} (plain : Plain run)
    (split : run = earlier ++ other :: between ++ operation :: later)
    (labels : (scopedLabels run).Nodup) (functions : (functionsOf run).Nodup)
    (apart : ∀ name ∈ functionsOf run, ∀ label ∈ scopedLabels run, label.1 ≠ .file name)
    (first : other.defines? ((Writer.new .unlimited annotate).after earlier) = some symbol) :
    operation.defines? ((Writer.new .unlimited annotate).after (earlier ++ other :: between)) ≠
      some symbol := by
  intro again
  have dollar (region : Region) (label : String) : '$' ∈ (region.symbol label).toList := by
    simp [Region.symbol]
  have entered {before after : List Operation} {name : String} (split : run = before ++ after)
      (region : regionAfter before = .function name) : name ∈ functionsOf run := by
    rw [split, functionsOf_append]
    exact List.mem_append_left _ (mem_functionsOf_of_region region)
  have here : other ∈ run := by simp [split]
  have there : operation ∈ run := by simp [split]
  have whole : run = earlier ++ other :: (between ++ operation :: later) := by simp [split]
  rcases defines_cases first with ⟨label, labelled, rfl⟩ | enters
  · rcases defines_cases again with ⟨label', labelled', same⟩ | enters'
    · obtain ⟨names, rfl⟩ := Region.symbol_injective (plain.label other here label labelled)
        (plain.label operation there label' labelled') same
      have old : (regionAfter earlier, label) ∈ scopedLabels run :=
        whole ▸ mem_scopedLabels labelled
      have new : (regionAfter (earlier ++ other :: between), label) ∈ scopedLabels run :=
        split ▸ mem_scopedLabels labelled'
      rcases Region.name_cases names with same | ⟨name, ⟨file, function⟩ | ⟨function, file⟩⟩
      · rw [split, label_scopedLabels labelled', List.nodup_append'] at labels
        exact labels.2.2 (mem_scopedLabels labelled) (same ▸ .head _)
      · exact apart name (entered split function) _ old file
      · exact apart name (entered whole function) _ new file
    · exact plain.function operation there _ enters' (dollar _ _)
  · rcases defines_cases again with ⟨label', _, rfl⟩ | enters'
    · exact plain.function other here _ enters (dollar _ _)
    · rw [split, functionsOf_append, List.nodup_append'] at functions
      exact functions.2.2 (List.mem_filterMap.mpr ⟨other, by simp, enters⟩)
        (List.mem_filterMap.mpr ⟨operation, .head _, enters'⟩)

/-- Labels and jumps name labels of their own region. Only a unit and a function of one name can
share a label, and without that a program in which every region defines a label once and every
function is entered once has no label defined twice. -/
theorem labels_scoped (bootstrap annotate : Bool) (units : List (String × String)) :
    let w := Writer.new .unlimited annotate
    let run := Writer.programOperations bootstrap units
    (∀ before operation later, run = before ++ operation :: later → ∀ i code,
      operation.instruction? = some i → (regionAfter before).code? i = some code →
        let o := (w.after before).perform operation
        o.failure? = none ∧ o.writer.sink.code = (w.after before).sink.code ++ code ∨
          ∃ label, i = .label label ∧
            o.failure? = some (.code (.duplicateLabel ((regionAfter before).symbol label)))) ∧
    (∀ first ∈ scopedLabels run, ∀ second ∈ scopedLabels run,
      first.1.symbol first.2 = second.1.symbol second.2 →
        first.2 = second.2 ∧ (first.1 = second.1 ∨
          ∃ name, first.1 = .file name ∧ second.1 = .function name ∨
            first.1 = .function name ∧ second.1 = .file name)) ∧
    ((scopedLabels run).Nodup → (functionsOf run).Nodup →
      (∀ name ∈ functionsOf run, ∀ label ∈ scopedLabels run, label.1 ≠ .file name) →
      ∀ symbol, (translation bootstrap annotate units).failure? ≠
        some (.code (.duplicateLabel symbol))) := by
  intro w run
  have plain := plain_programOperations bootstrap units
  refine ⟨?_, fun first here second there => plain.symbol_cases here there, ?_⟩
  · intro before operation later _ i code given coded
    rw [← region_run annotate] at coded ⊢
    exact Writer.perform_code (Writer.after_unlimited rfl before) given coded
  · intro labels functions apart symbol failed
    obtain ⟨before, operation, later, split, refused⟩ :=
      (stops_translation bootstrap annotate units).failed _ failed
    obtain ⟨again, taken⟩ :=
      (Writer.perform_duplicate (Writer.after_unlimited rfl before)).mp refused
    have empty : symbol ∉ (Writer.new .unlimited annotate).scope.defined := by
      simp [Writer.new, Scope.empty]
    obtain ⟨earlier, other, between, rfl, first, _⟩ :=
      ((Writer.after_defined rfl before symbol).mp taken).resolve_left empty
    exact plain.defines_once split labels functions apart first again

/-- One label in a unit and in two functions of different units. -/
def everywhere : List (String × String) :=
  [("Main", "label L\ngoto L\nfunction Main.f 0\nlabel L"), ("Next", "function Next.g 0\nlabel L")]

theorem labels_scoped_everywhere :
    (translation true false everywhere).failure? ≠ some (.code (.duplicateLabel "Main$L")) := by
  obtain ⟨_, _, free⟩ := labels_scoped true false everywhere
  exact free (by decide +kernel) (by decide +kernel) (by decide +kernel) "Main$L"

/-- Units in which no label is defined twice, if every unit were to start outside any function. -/
structure ScopedByUnit (units : List (String × String)) : Prop where
  stems : (units.map Prod.fst).Nodup
  names : ∀ unit ∈ units, Vm.isSymbol unit.1
  labels : (labelsFrom Region.nextInUnit (.file "") (Writer.programOperations false units)).Nodup
  functions : (functionsOf (Writer.programOperations false units)).Nodup

/-- A function is called like another unit, in which the label stands outside functions. -/
def namesakes : List (String × String) :=
  [("Foo", "label L"), ("Main", "function Foo 0\nlabel L")]

/-- A function reaches into the next unit. -/
def reaching : List (String × String) :=
  [("Main", "function Main.f 0\nlabel L"), ("Next", "label L")]

theorem labels_clash :
    ScopedByUnit namesakes ∧
      (translation false false namesakes).failure? = some (.code (.duplicateLabel "Foo$L")) ∧
      ScopedByUnit reaching ∧
      (translation false false reaching).failure? = some (.code (.duplicateLabel "Main.f$L")) := by
  have first : ScopedByUnit namesakes := by
    constructor <;> decide +kernel
  have second : ScopedByUnit reaching := by
    constructor <;> decide +kernel
  exact ⟨first, by decide +kernel, second, by decide +kernel⟩

end HackToolchain.Codegen
