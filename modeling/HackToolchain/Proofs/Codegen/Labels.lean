import HackToolchain.Proofs.Codegen.Operations

/-! No label is defined twice, however a writer is used. A generated label has a number that no other
operation uses; a label that the program chose is entered in a table, and it never starts as generated
labels do. -/
namespace HackToolchain.Codegen

open Assembly (Instruction)

/-- A label that was generated with a number. -/
def Numbered (n : Nat) (symbol : String) : Prop :=
  ∃ tag, symbol.toList = '$' :: tag ++ '.' :: n.repr.toList

/-- The labels that are generated for an instruction when `n` is the next number. -/
def numberedLabels (n : Nat) : Vm.Instruction → List String
  | .arithmetic .eq | .arithmetic .gt | .arithmetic .lt => [trueLabel n, endLabel (n + 1)]
  | .call .. => [returnLabel n]
  | _ => []

/-- The label that an instruction defines by the program's choice. -/
def chosen? (scope : String) : Vm.Instruction → Option String
  | .label name => some (scope ++ "$" ++ name)
  | .function name _ => some name
  | _ => none

theorem Numbered.starts {n : Nat} {symbol : String} (numbered : Numbered n symbol) :
    symbol.toList.head? = some '$' := by
  obtain ⟨tag, text⟩ := numbered
  rw [text]
  rfl

/-- A label has one number. -/
theorem Numbered.unique {n m : Nat} {symbol : String} (first : Numbered n symbol)
    (second : Numbered m symbol) : n = m := by
  obtain ⟨tag, text⟩ := first
  obtain ⟨tag', text'⟩ := second
  have digits (n : Nat) : '.' ∉ n.repr.toList := Text.not_mem_repr (by decide) n
  have numbers := (split_last (digits n) (digits m) (text.symm.trans text')).2
  exact Nat.repr_injective (String.toList_inj.mp numbers)

theorem numbered_trueLabel (n : Nat) : Numbered n (trueLabel n) :=
  ⟨"TRUE".toList, by simp [trueLabel]⟩

theorem numbered_endLabel (n : Nat) : Numbered n (endLabel n) :=
  ⟨"END".toList, by simp [endLabel]⟩

theorem numbered_returnLabel (n : Nat) : Numbered n (returnLabel n) :=
  ⟨"RET".toList, by simp [returnLabel]⟩

theorem labels_append (first second : List Instruction) :
    labels (first ++ second) = labels first ++ labels second :=
  List.filterMap_append

/-- Code defines the label that the program chose, or the generated ones. -/
theorem CodeOf.labels_eq {label : Nat} {file scope : String} {i : Vm.Instruction}
    {code : List Instruction} (generated : CodeOf label file scope i code) :
    labels code = (chosen? scope i).toList ++ numberedLabels label i := by
  cases generated with
  | arithmetic op => cases op <;> rfl
  | function name locals => exact labels_enter name locals.toNat
  | pushConstant | pushBased | pushNamed | popBased | popNamed => rfl
  | label | goto | ifGoto | call | «return» => rfl

theorem head_of_isSymbol {name : String} (symbol : Vm.isSymbol name) (rest : String) :
    ∃ c, (name ++ rest).toList.head? = some c ∧ Vm.isIdentifierStart c := by
  unfold Vm.isSymbol at symbol
  split at symbol
  · contradiction
  · rename_i c tail text
    have start := (Bool.and_eq_true_iff.mp symbol).1
    rw [String.toList_append, text]
    exact ⟨c, rfl, start⟩

/-- A label that the program chose starts as names do. -/
theorem head_of_chosen {scope symbol : String} {i : Vm.Instruction}
    (chosen : chosen? scope i = some symbol) (scopes : Vm.isSymbol scope) (named : i.Named) :
    ∃ c, symbol.toList.head? = some c ∧ Vm.isIdentifierStart c := by
  cases i with
  | label name =>
    obtain rfl := Option.some.inj chosen
    rw [String.append_assoc]
    exact head_of_isSymbol scopes _
  | function name locals =>
    obtain rfl := Option.some.inj chosen
    exact String.append_empty (s := name) ▸ head_of_isSymbol named ""
  | _ => contradiction

theorem starts_of_chosen {scope symbol : String} {i : Vm.Instruction}
    (chosen : chosen? scope i = some symbol) (scopes : Vm.isSymbol scope) (named : i.Named) :
    symbol.toList.head? ≠ some '$' := by
  obtain ⟨c, head, start⟩ := head_of_chosen chosen scopes named
  rw [head]
  rintro ⟨⟩
  contradiction

theorem mem_insert {table : Std.TreeSet String} {symbol other : String} :
    other ∈ table.insert symbol ↔ symbol = other ∨ other ∈ table := by
  rw [Std.TreeSet.mem_insert, Std.LawfulEqCmp.compare_eq_iff_eq]

theorem define_of_mem {s : Scope} {symbol : String} (taken : symbol ∈ s.defined) :
    s.define symbol = .error (.duplicateLabel symbol) :=
  if_pos (Std.TreeSet.mem_iff_contains.mp taken)

theorem define_of_not_mem {s : Scope} {symbol : String} (free : symbol ∉ s.defined) :
    s.define symbol = .ok { s with defined := s.defined.insert symbol } :=
  if_neg fun taken => free (Std.TreeSet.mem_iff_contains.mpr taken)

theorem bind_eq_error {x : Except ε α} {f : α → Except ε β} {e : ε}
    (failed : (x >>= f) = .error e) : x = .error e ∨ ∃ a, x = .ok a ∧ f a = .error e := by
  cases x with
  | error fault => exact .inl (congrArg _ (Except.error.inj failed))
  | ok a => exact .inr ⟨a, rfl, failed⟩

theorem place_eq_error {fileName : String} {segment : Vm.Segment} {index : UInt16}
    {e : Vm.CodeError} (failed : place fileName segment index = .error e) :
    e = .indexOutOfRange segment index := by
  have within {limit : Nat} {p : Place}
      (failed : (if index.toNat < limit then Except.ok p
        else .error (Vm.CodeError.indexOutOfRange segment index)) = .error e) :
      e = .indexOutOfRange segment index := by
    split at failed
    · contradiction
    · exact (Except.error.inj failed).symm
  cases segment with
  | «local» | argument | this | that | temp | pointer => exact within failed
  | static | constant => contradiction

theorem pushFrom_eq_error {index : UInt16} {found : Place} {e : Vm.CodeError}
    (failed : pushFrom index found = .error e) : e = .indexOutOfRange .constant index := by
  cases found with
  | literal =>
    simp only [pushFrom] at failed
    split at failed
    · contradiction
    · exact (Except.error.inj failed).symm
  | based register | named symbol => contradiction

theorem popInto_eq_error {index : UInt16} {found : Place} {e : Vm.CodeError}
    (failed : popInto index found = .error e) : e = .popConstant := by
  cases found with
  | literal => exact (Except.error.inj failed).symm
  | based register | named symbol => contradiction

/-- An instruction has no code because of a label exactly when it chose one that is taken. -/
theorem generate_duplicate {s : Scope} {i : Vm.Instruction} {symbol : String} :
    s.generate i = .error (.duplicateLabel symbol) ↔
      chosen? s.name i = some symbol ∧ symbol ∈ s.defined := by
  have defines {code : List Instruction} {other : String} :
      (do return (code, ← s.define other) : Except Vm.CodeError _) =
          .error (.duplicateLabel symbol) ↔ some other = some symbol ∧ symbol ∈ s.defined := by
    by_cases taken : other ∈ s.defined
    · rw [define_of_mem taken]
      constructor
      · rintro ⟨⟩
        exact ⟨rfl, taken⟩
      · rintro ⟨same, _⟩
        rw [Option.some.inj same]
        rfl
    · rw [define_of_not_mem taken]
      constructor
      · rintro ⟨⟩
      · rintro ⟨same, member⟩
        exact absurd (Option.some.inj same ▸ member) taken
  have unchosen (never : s.generate i ≠ .error (.duplicateLabel symbol))
      (none : chosen? s.name i = none) : s.generate i = .error (.duplicateLabel symbol) ↔
        chosen? s.name i = some symbol ∧ symbol ∈ s.defined := by
    simp [never, none]
  cases i with
  | label name => exact defines
  | function name locals => exact defines
  | arithmetic | goto | ifGoto | «return» => exact unchosen nofun rfl
  | push segment index =>
    refine unchosen (fun failed => ?_) rfl
    rcases bind_eq_error failed with failed | ⟨found, _, failed⟩
    · cases place_eq_error failed
    rcases bind_eq_error failed with failed | ⟨code, _, failed⟩
    · cases pushFrom_eq_error failed
    · contradiction
  | pop segment index =>
    refine unchosen (fun failed => ?_) rfl
    rcases bind_eq_error failed with failed | ⟨found, _, failed⟩
    · cases place_eq_error failed
    rcases bind_eq_error failed with failed | ⟨code, _, failed⟩
    · cases popInto_eq_error failed
    · contradiction
  | call function arguments =>
    refine unchosen (fun failed => ?_) rfl
    simp only [Scope.generate] at failed
    split at failed <;> cases failed

/-- What code does to the numbers and the table. -/
theorem generate_taken {s t : Scope} {i : Vm.Instruction} {code : List Instruction}
    (generated : s.generate i = .ok (code, t)) :
    t.nextLabel = s.nextLabel + (numberedLabels s.nextLabel i).length ∧
      match chosen? s.name i with
      | none => t.defined = s.defined
      | some symbol => symbol ∉ s.defined ∧ t.defined = s.defined.insert symbol := by
  have defined {symbol : String} (define : s.define symbol = .ok t) :
      t.nextLabel = s.nextLabel ∧ symbol ∉ s.defined ∧ t.defined = s.defined.insert symbol := by
    by_cases taken : symbol ∈ s.defined
    · rw [define_of_mem taken] at define
      contradiction
    · rw [define_of_not_mem taken] at define
      exact Except.ok.inj define ▸ ⟨rfl, taken, rfl⟩
  cases i with
  | label name | function name locals =>
    obtain ⟨taken, define, generated⟩ := bind_eq_ok generated
    obtain rfl := (Prod.mk.inj (Except.ok.inj generated)).2
    exact defined define
  | push segment index | pop segment index =>
    obtain ⟨_, _, generated⟩ := bind_eq_ok generated
    obtain ⟨_, _, generated⟩ := bind_eq_ok generated
    exact (Prod.mk.inj (Except.ok.inj generated)).2 ▸ ⟨rfl, rfl⟩
  | arithmetic op =>
    obtain rfl := (Prod.mk.inj (Except.ok.inj generated)).2
    cases op <;> exact ⟨rfl, rfl⟩
  | call function arguments =>
    simp only [Scope.generate] at generated
    split at generated
    · exact (Prod.mk.inj (Except.ok.inj generated)).2 ▸ ⟨rfl, rfl⟩
    · contradiction
  | goto | ifGoto | «return» =>
    exact (Prod.mk.inj (Except.ok.inj generated)).2 ▸ ⟨rfl, rfl⟩

/-- New labels are accounted for: each is entered in the table or has a number that is used up. -/
structure Grows (s t : Scope) (new : List String) : Prop where
  counter : s.nextLabel ≤ t.nextLabel
  kept : ∀ symbol ∈ s.defined, symbol ∈ t.defined
  plain : ∀ symbol ∈ t.defined, symbol ∈ s.defined ∨ symbol.toList.head? ≠ some '$'
  distinct : new.Nodup
  fresh : ∀ symbol ∈ new, symbol ∉ s.defined ∧ symbol ∈ t.defined ∨
    ∃ n, s.nextLabel ≤ n ∧ n < t.nextLabel ∧ Numbered n symbol

theorem Grows.refl (s : Scope) : Grows s s [] :=
  ⟨Nat.le_refl _, fun _ => id, fun _ => .inl, .nil, by simp⟩

theorem numberedLabels_nodup (n : Nat) (i : Vm.Instruction) : (numberedLabels n i).Nodup := by
  have different : trueLabel n ≠ endLabel (n + 1) := by
    intro same
    have := (numbered_trueLabel n).unique (same ▸ numbered_endLabel (n + 1))
    omega
  cases i with
  | arithmetic op => cases op <;> simp [numberedLabels, different]
  | _ => simp [numberedLabels]

theorem numbered_of_mem {n : Nat} {i : Vm.Instruction} {symbol : String}
    (member : symbol ∈ numberedLabels n i) :
    ∃ m, n ≤ m ∧ m < n + (numberedLabels n i).length ∧ Numbered m symbol := by
  cases i with
  | call function arguments =>
    obtain rfl := List.mem_singleton.mp member
    exact ⟨n, Nat.le_refl n, Nat.lt_succ_self n, numbered_returnLabel n⟩
  | arithmetic op =>
    have both (symbol : String) (member : symbol ∈ [trueLabel n, endLabel (n + 1)]) :
        ∃ m, n ≤ m ∧ m < n + 2 ∧ Numbered m symbol := by
      rcases List.mem_cons.mp member with rfl | member
      · exact ⟨n, Nat.le_refl n, by omega, numbered_trueLabel n⟩
      · obtain rfl := List.mem_singleton.mp member
        exact ⟨n + 1, by omega, by omega, numbered_endLabel (n + 1)⟩
    cases op with
    | add | sub | neg | and | or | not => contradiction
    | eq | gt | lt => exact both symbol member
  | _ => contradiction

theorem grows_generate {s t : Scope} {i : Vm.Instruction} {code : List Instruction}
    (generated : s.generate i = .ok (code, t)) (scopes : Vm.isSymbol s.name) (named : i.Named) :
    Grows s t (labels code) := by
  obtain ⟨count, table⟩ := generate_taken generated
  have split := (codeOf_generate generated).labels_eq
  have counter : s.nextLabel ≤ t.nextLabel := count ▸ Nat.le_add_right ..
  have numbers (symbol : String) (member : symbol ∈ numberedLabels s.nextLabel i) :
      ∃ n, s.nextLabel ≤ n ∧ n < t.nextLabel ∧ Numbered n symbol := by
    rw [count]
    exact numbered_of_mem member
  cases chosen : chosen? s.name i with
  | none =>
    rw [chosen] at table split
    dsimp only at table
    rw [split]
    refine ⟨counter, by simp [table], by simp [table]; tauto, numberedLabels_nodup _ i, ?_⟩
    intro symbol member
    exact .inr (numbers symbol member)
  | some symbol =>
    rw [chosen] at table split
    obtain ⟨free, table⟩ := table
    have alone : numberedLabels s.nextLabel i = [] := by
      cases i <;> first | rfl | contradiction
    rw [alone] at split
    rw [split]
    refine ⟨counter, ?_, ?_, List.nodup_singleton symbol, ?_⟩
    · intro other member
      rw [table]
      exact mem_insert.mpr (.inr member)
    · intro other member
      rw [table] at member
      rcases mem_insert.mp member with rfl | member
      · exact .inr (starts_of_chosen chosen scopes named)
      · exact .inl member
    · intro other member
      obtain rfl := List.mem_singleton.mp member
      exact .inl ⟨free, table ▸ mem_insert.mpr (.inl rfl)⟩

theorem grows_bootstrap (s : Scope) : Grows s s.bootstrap.2 (labels s.bootstrap.1) := by
  have single : labels s.bootstrap.1 = [returnLabel s.nextLabel] := rfl
  rw [single]
  refine ⟨Nat.le_succ _, fun _ => id, fun _ => .inl, List.nodup_singleton _, ?_⟩
  intro symbol member
  obtain rfl := List.mem_singleton.mp member
  exact .inr ⟨s.nextLabel, Nat.le_refl _, Nat.lt_succ_self _, numbered_returnLabel _⟩

theorem isSymbol_name {s : Scope} (file : Vm.isSymbol s.fileName)
    (function : ∀ name ∈ s.function?, Vm.isSymbol name) : Vm.isSymbol s.name := by
  rw [Scope.name]
  cases current : s.function? with
  | none => exact file
  | some name => exact function name current

theorem function_entering {s : Scope} {i : Vm.Instruction}
    (function : ∀ name ∈ s.function?, Vm.isSymbol name) (named : i.Named) :
    ∀ name ∈ (s.entering i).function?, Vm.isSymbol name := by
  cases i with
  | function name locals =>
    rintro _ ⟨⟩
    exact named
  | _ => exact function

theorem Grows.entering {s t : Scope} {i : Vm.Instruction} {new : List String}
    (grows : Grows (s.entering i) t new) : Grows s t new := by
  cases i <;> exact ⟨grows.counter, grows.kept, grows.plain, grows.distinct, grows.fresh⟩

theorem grows_entering (s : Scope) (i : Vm.Instruction) : Grows s (s.entering i) [] :=
  (Grows.refl (s.entering i)).entering

end HackToolchain.Codegen
