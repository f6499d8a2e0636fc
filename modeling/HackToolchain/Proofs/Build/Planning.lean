import HackToolchain.Build.Plan
import HackToolchain.Proofs.Files.Extensions

/-! Planning on a tree of files. A plan is found by looking at files only, and its sources are files
with a name of their own, in order. -/
namespace HackToolchain.Build

open Files

variable {fs : FileSystem} {source path : Path} {p : Plan}

/-- What planning answers. -/
def planned (fs : FileSystem) (source : Path) : Except Error Plan :=
  ((plan source : StateM FileSystem _).run fs).1

def isSource (fs : FileSystem) (path : Path) : Bool :=
  fs.isFile path && Path.extension? path = some (Path.ofText "vm")

theorem run_isVmFile (fs : FileSystem) (path : Path) :
    (isVmFile path : StateM FileSystem _).run fs = (isSource fs path, fs) :=
  rfl

/-- Choosing by a test that changes nothing changes nothing. -/
theorem run_filterM {test : α → StateM σ Bool} {holds : α → Bool} {s : σ}
    (answers : ∀ item, (test item).run s = (holds item, s)) (items : List α) :
    (items.filterM test).run s = (items.filter holds, s) := by
  have chosen (kept : List α) : (List.filterAuxM test items kept).run s =
      ((items.filter holds).reverse ++ kept, s) := by
    induction items generalizing kept with
    | nil => rfl
    | cons item rest ih =>
      rw [List.filterAuxM, run_bind (answers item), ih]
      cases kept : holds item <;> simp [kept]
  rw [List.filterM, run_bind (chosen []), List.append_nil, List.reverse_reverse]
  rfl

theorem run_plan (fs : FileSystem) (source : Path) :
    (plan source : StateM FileSystem _).run fs =
      (if fs.isDirectory source then
        match fs.entries source with
        | .error reason => .error (.io source reason)
        | .ok names =>
          Plan.ofDirectory source (names.filter fun name => isSource fs (Path.join source name))
            (fs.ownName? source)
      else if isSource fs source then Plan.ofFile source
      else .error (.notVmFile source), fs) := by
  have directory : (Storage.isDirectory source : StateM FileSystem _).run fs =
      (fs.isDirectory source, fs) := rfl
  have entries : (Storage.entries source : StateM FileSystem _).run fs =
      (fs.entries source, fs) := rfl
  have own : (Storage.ownName? source : StateM FileSystem _).run fs =
      (fs.ownName? source, fs) := rfl
  rw [plan, run_bind directory]
  cases fs.isDirectory source with
  | true =>
    rw [if_pos rfl, if_pos rfl, run_bind entries]
    cases fs.entries source with
    | error reason => rfl
    | ok names =>
      dsimp only
      rw [run_bind (run_filterM (fun name => run_isVmFile fs (Path.join source name)) names),
        run_bind own]
      rfl
  | false =>
    rw [if_neg Bool.false_ne_true, if_neg Bool.false_ne_true, run_bind (run_isVmFile fs source)]
    cases isSource fs source <;> rfl

theorem join_le {folder first second : Path} (ordered : first ≤ second) :
    Path.join folder first ≤ Path.join folder second := by
  obtain ⟨above, _, joined⟩ := Path.exists_join folder
  rw [joined, joined]
  exact List.append_left_le ordered

theorem sorted_names (names : List Path) : (names.mergeSort (· ≤ ·)).Pairwise (· ≤ ·) := by
  have transitive (a b c : Path) : decide (a ≤ b) → decide (b ≤ c) → decide (a ≤ c) := by
    simpa only [decide_eq_true_eq] using List.le_trans
  have total (a b : Path) : decide (a ≤ b) || decide (b ≤ a) := by
    simpa using List.le_total a b
  simpa only [decide_eq_true_eq] using List.pairwise_mergeSort transitive total names

theorem checkNames_eq_ok {sources : List Path} :
    checkNames sources = .ok () ↔ ∀ path ∈ sources, (unitName? path).isSome := by
  rw [checkNames]
  split
  · rename_i path found
    simp only [reduceCtorEq, false_iff, not_forall]
    have missing := List.find?_some found
    exact ⟨path, List.mem_of_find?_eq_some found, by simpa using missing⟩
  · rename_i none
    simpa [Option.isSome_iff_ne_none] using none

theorem Plan.ofDirectory_eq_ok {names : List Path} {own? : Option Path}
    (made : Plan.ofDirectory source names own? = .ok p) :
    p.sources = (names.mergeSort (· ≤ ·)).map (Path.join source) ∧
      (∀ path ∈ p.sources, (unitName? path).isSome) ∧
      ∃ name ∈ own?, p.output = Path.withExtension (Path.join source name) "asm" := by
  simp only [Plan.ofDirectory] at made
  split at made
  · contradiction
  cases checked : checkNames ((names.mergeSort (· ≤ ·)).map (Path.join source)) with
  | error e => simp [checked, bind, Except.bind] at made
  | ok _ =>
    simp only [checked, bind, Except.bind, pure, Except.pure] at made
    split at made
    · contradiction
    · obtain rfl := Except.ok.inj made
      exact ⟨rfl, checkNames_eq_ok.mp checked, _, rfl, rfl⟩

theorem Plan.ofFile_eq_ok (made : Plan.ofFile source = .ok p) :
    p.sources = [source] ∧ (unitName? source).isSome ∧
      p.output = Path.withExtension source "asm" := by
  simp only [Plan.ofFile] at made
  cases checked : checkNames [source] with
  | error e => simp [checked, bind, Except.bind] at made
  | ok _ =>
    simp only [checked, bind, Except.bind, pure, Except.pure] at made
    obtain rfl := Except.ok.inj made
    exact ⟨rfl, checkNames_eq_ok.mp checked source (List.mem_singleton_self _), rfl⟩

/-- A plan that can be carried out. -/
structure Plan.Valid (fs : FileSystem) (p : Plan) : Prop where
  files : ∀ path ∈ p.sources, isSource fs path
  named : ∀ path ∈ p.sources, (unitName? path).isSome
  ordered : p.sources.Pairwise (· ≤ ·)
  output : ∃ base, p.output = Path.withExtension base "asm"

/-- A plan is that of a directory or that of a source file. -/
theorem planned_eq_ok (found : planned fs source = .ok p) :
    (fs.isDirectory source = true ∧ ∃ names, fs.entries source = .ok names ∧
      Plan.ofDirectory source (names.filter fun name => isSource fs (Path.join source name))
        (fs.ownName? source) = .ok p) ∨
    fs.isDirectory source = false ∧ isSource fs source = true ∧ Plan.ofFile source = .ok p := by
  rw [planned, run_plan] at found
  dsimp only at found
  split at found
  · rename_i directory
    split at found
    · contradiction
    · rename_i names listed
      exact .inl ⟨directory, names, listed, found⟩
  · rename_i other
    split at found
    · rename_i file
      exact .inr ⟨by simpa using other, file, found⟩
    · contradiction

theorem valid_of_planned (found : planned fs source = .ok p) : p.Valid fs := by
  rcases planned_eq_ok found with ⟨_, names, _, made⟩ | ⟨_, file, made⟩
  · obtain ⟨sources, named, own, _, output⟩ := Plan.ofDirectory_eq_ok made
    refine ⟨?_, named, ?_, Path.join source own, output⟩
    · intro path member
      rw [sources, List.mem_map] at member
      obtain ⟨name, member, rfl⟩ := member
      exact (List.mem_filter.mp (List.mem_mergeSort.mp member)).2
    · rw [sources]
      exact (sorted_names _).map _ fun _ _ => join_le
  · obtain ⟨sources, named, output⟩ := Plan.ofFile_eq_ok made
    refine ⟨?_, ?_, ?_, source, output⟩ <;> rw [sources]
    · exact List.forall_mem_singleton.mpr file
    · exact List.forall_mem_singleton.mpr named
    · exact List.pairwise_singleton _ _

theorem vm_ne_asm (stem stem' : Path) :
    stem ++ Path.dot :: Path.ofText "vm" ≠ stem' ++ Path.dot :: Path.ofText "asm" := by
  intro same
  have vm : Path.ofText "vm" = [0x76, 0x6d] := by decide +kernel
  have asm : Path.ofText "asm" = [0x61, 0x73, 0x6d] := by decide +kernel
  rw [vm, asm] at same
  have last := congrArg (·.reverse.drop 1) same
  simp at last

namespace Plan.Valid

theorem holds (valid : p.Valid fs) (member : path ∈ p.sources) :
    ∃ l content, fs.Holds path l content := by
  have file := (Bool.and_eq_true_iff.mp (valid.files path member)).1
  rw [FileSystem.isFile, FileSystem.find?] at file
  split at file
  · rename_i l resolved
    obtain ⟨node, found, kind⟩ := (Option.any_eq_true _ _).mp file
    cases node with
    | directory => contradiction
    | file content => exact ⟨l, content, resolved, found⟩
  · contradiction

/-- The output that is planned is no source: its name ends in another extension. -/
theorem ne_output (valid : p.Valid fs) (member : path ∈ p.sources) {l : Location}
    (target : fs.target p.output = .ok l) : fs.resolve path ≠ .ok l := by
  intro same
  obtain ⟨l', content, holds⟩ := valid.holds member
  obtain rfl := Except.ok.inj (holds.resolved.symm.trans same)
  have extended := (Bool.and_eq_true_iff.mp (valid.files path member)).2
  obtain ⟨stem, name⟩ := holds.getLast? (of_decide_eq_true extended)
  obtain ⟨base, output⟩ := valid.output
  rw [output] at target
  obtain ⟨stem', name'⟩ := FileSystem.getLast?_target (by decide) target
  exact vm_ne_asm stem stem' (Option.some.inj (name.symm.trans name'))

end Plan.Valid

end HackToolchain.Build
