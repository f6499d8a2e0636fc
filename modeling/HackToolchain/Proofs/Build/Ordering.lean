import HackToolchain.Proofs.Build.Planning
import HackToolchain.Proofs.Files.Listing

/-! Planning a directory. The order in which its files are listed decides neither which of them are
read, nor in which order, nor which of them is at fault. -/
namespace HackToolchain.Build

open Files Vm

variable {fs fs' : FileSystem} {source : Path} {l : Location}

/-- Sorting forgets the order before it. -/
theorem sorted_congr {names names' : List Path} (same : names.Perm names') :
    names.mergeSort (· ≤ ·) = names'.mergeSort (· ≤ ·) := by
  have perm : (names.mergeSort (· ≤ ·)).Perm (names'.mergeSort (· ≤ ·)) :=
    (List.mergeSort_perm names _).trans (same.trans (List.mergeSort_perm names' _).symm)
  apply perm.eq_of_pairwise _ (sorted_names names) (sorted_names names')
  intro first second _ _ below above
  exact List.le_antisymm below above

theorem Plan.ofDirectory_congr {names names' : List Path} (same : names.Perm names')
    (own? : Option Path) :
    Plan.ofDirectory source names own? = Plan.ofDirectory source names' own? := by
  have none : names = [] ↔ names' = [] := by
    constructor
    · rintro rfl
      exact same.nil_eq.symm
    · rintro rfl
      exact same.eq_nil
  simp only [Plan.ofDirectory, none, sorted_congr same]

theorem Plan.ofDirectory_filled {names : List Path} (filled : names ≠ []) (own : Path) :
    Plan.ofDirectory source names (some own) =
      (checkNames ((names.mergeSort (· ≤ ·)).map (Path.join source))).map fun _ =>
        ⟨(names.mergeSort (· ≤ ·)).map (Path.join source),
          Path.withExtension (Path.join source own) "asm"⟩ := by
  simp only [Plan.ofDirectory, if_neg filled]
  cases checkNames ((names.mergeSort (· ≤ ·)).map (Path.join source)) <;> rfl

/-- Of sources in order the least one without a name is at fault. -/
theorem checkNames_least {sources : List Path} (ordered : sources.Pairwise (· ≤ ·))
    {bad : Path} (member : bad ∈ sources) (unnamed : unitName? bad = none) :
    ∃ least ∈ sources, unitName? least = none ∧
      (∀ path ∈ sources, unitName? path = none → least ≤ path) ∧
      checkNames sources = .error (.invalidName least) := by
  have some : (sources.find? fun path => (unitName? path).isNone).isSome :=
    List.find?_isSome.mpr ⟨bad, member, Option.isNone_iff_eq_none.mpr unnamed⟩
  obtain ⟨least, found⟩ := Option.isSome_iff_exists.mp some
  obtain ⟨missing, before, after, split, named⟩ := List.find?_eq_some_iff_append.mp found
  refine ⟨least, List.mem_of_find?_eq_some found, Option.isNone_iff_eq_none.mp missing, ?_, ?_⟩
  · intro path member missing
    rw [split] at member ordered
    obtain ⟨_, behind, _⟩ := List.pairwise_append.mp ordered
    rcases List.mem_append.mp member with earlier | later
    · have present := named path earlier
      rw [missing] at present
      contradiction
    · rcases List.mem_cons.mp later with rfl | later
      · exact List.le_refl _
      · exact List.rel_of_pairwise_cons behind later
  · rw [checkNames, found]

/-- A directory holds a source `stem.vm`: a file, and one with a stem. -/
def HoldsSource (fs : FileSystem) (l : Location) (stem : Path) : Prop :=
  stem ≠ [] ∧ ∃ content, fs.node? (l ++ [stem ++ ".vm"]) = some (.file content)

/-- Its name is in the directory, with the extension. -/
theorem HoldsSource.named {stem : Path} (holds : HoldsSource fs l stem) (tidy : fs.Tidy) :
    stem ++ ".vm" ∈ fs.names l ∧ Path.IsName (stem ++ ".vm") ∧ Path.slash ∉ stem ++ ".vm" := by
  obtain ⟨_, content, there⟩ := holds
  have listed : stem ++ ".vm" ∈ fs.names l := by
    rw [FileSystem.mem_names, there]
    rfl
  exact ⟨listed, tidy.of_mem_names listed⟩

/-- The path of a source in a directory. -/
def sourcePath (source stem : Path) : Path :=
  Path.join source (stem ++ ".vm")

/-- A stem that can stand in assembly: a text that is a symbol. -/
def Usable (stem : Path) : Prop :=
  ∃ name, Path.text? stem = some name ∧ isSymbol name

theorem dotted_vm (stem : Path) : stem ++ Path.dot :: Path.ofText "vm" = stem ++ ".vm" := by
  rw [show Path.dot :: Path.ofText "vm" = Path.ofText ".vm" by decide +kernel]

/-- A source has a name exactly if its stem can stand in assembly. -/
theorem isSome_unitName?_sourcePath (tidy : fs.Tidy) {stem : Path} (holds : HoldsSource fs l stem) :
    (unitName? (sourcePath source stem)).isSome ↔ Usable stem := by
  obtain ⟨_, named, plain⟩ := holds.named tidy
  have split : Path.splitName (stem ++ ".vm") = (stem, some (Path.ofText "vm")) := by
    rw [← dotted_vm]
    exact Path.splitName_append holds.1 (by decide +kernel)
  rw [unitName?, sourcePath, Path.stem?_join named plain, split, Option.bind_some, Usable,
    Option.isSome_iff_exists]
  simp only [Option.filter_eq_some_iff]

/-- The sources of a directory as it is listed. -/
def listedSources (fs : FileSystem) (source : Path) (l : Location) : List Path :=
  (fs.names l).filter fun name => isSource fs (Path.join source name)

/-- The paths of these sources in the order in which they are read. -/
def sortedSources (fs : FileSystem) (source : Path) (l : Location) : List Path :=
  ((listedSources fs source l).mergeSort (· ≤ ·)).map (Path.join source)

theorem listedSources_reordered (reordered : fs.Reordered fs') (tidy : fs.Tidy) :
    (listedSources fs' source l).Perm (listedSources fs source l) := by
  have same (path : Path) : isSource fs' path = isSource fs path := by
    rw [isSource, isSource, FileSystem.isFile, FileSystem.isFile, reordered.find? tidy]
  simp only [listedSources, same]
  exact (reordered.names l).filter _

theorem planned_directory (resolved : fs.resolve source = .ok l) (inside : fs.isFolder l)
    (readable : fs.medium.unreadable? l = none) :
    planned fs source = Plan.ofDirectory source (listedSources fs source l) l.getLast? := by
  have directory : fs.isDirectory source = true := by
    rw [FileSystem.isDirectory, FileSystem.find?, resolved]
    exact inside
  have entries : fs.entries source = .ok (fs.names l) := by
    rw [FileSystem.entries, resolved]
    simp [inside, readable, bind, Except.bind, pure, Except.pure]
  have own : fs.ownName? source = l.getLast? := by
    rw [FileSystem.ownName?, resolved]
  rw [planned, run_plan, if_pos directory, entries, own]
  rfl

theorem planned_filled (resolved : fs.resolve source = .ok l) (inside : fs.isFolder l)
    (readable : fs.medium.unreadable? l = none) (filled : listedSources fs source l ≠ [])
    {own : Path} (last : l.getLast? = some own) :
    planned fs source = (checkNames (sortedSources fs source l)).map fun _ =>
      ⟨sortedSources fs source l, Path.withExtension (Path.join source own) "asm"⟩ := by
  rw [planned_directory resolved inside readable, last, Plan.ofDirectory_filled filled]
  rfl

section Directory

variable (resolved : fs.resolve source = .ok l) (inside : fs.isFolder l) (tidy : fs.Tidy)
include resolved inside tidy

theorem mem_listedSources {name : Path} :
    name ∈ listedSources fs source l ↔ ∃ stem, HoldsSource fs l stem ∧ name = stem ++ ".vm" := by
  have undotted : Path.dot ∉ Path.ofText "vm" := by decide +kernel
  rw [listedSources, List.mem_filter, isSource, Bool.and_eq_true, decide_eq_true_eq,
    FileSystem.isFile]
  constructor
  · rintro ⟨listed, file, extended⟩
    obtain ⟨named, plain⟩ := tidy.of_mem_names listed
    obtain ⟨stem, filled, rfl⟩ := (Path.extension?_join named plain undotted).mp extended
    rw [FileSystem.find?_join resolved inside named plain] at file
    obtain ⟨node, there, kind⟩ := (Option.any_eq_true _ _).mp file
    rw [dotted_vm] at there ⊢
    cases node with
    | directory => contradiction
    | file content => exact ⟨stem, ⟨filled, content, there⟩, rfl⟩
  · rintro ⟨stem, holds, rfl⟩
    obtain ⟨listed, named, plain⟩ := holds.named tidy
    obtain ⟨filled, content, there⟩ := holds
    refine ⟨listed, ?_, ?_⟩
    · rw [FileSystem.find?_join resolved inside named plain, there]
      rfl
    · exact (Path.extension?_join named plain undotted).mpr ⟨stem, filled, (dotted_vm stem).symm⟩

theorem mem_sortedSources {path : Path} :
    path ∈ sortedSources fs source l ↔
      ∃ stem, HoldsSource fs l stem ∧ path = sourcePath source stem := by
  rw [sortedSources, List.mem_map]
  simp only [List.mem_mergeSort, mem_listedSources resolved inside tidy]
  constructor
  · rintro ⟨name, ⟨stem, holds, rfl⟩, rfl⟩
    exact ⟨stem, holds, rfl⟩
  · rintro ⟨stem, holds, rfl⟩
    exact ⟨_, ⟨stem, holds, rfl⟩, rfl⟩

omit resolved inside in
theorem sortedSources_increasing : (sortedSources fs source l).Pairwise (· < ·) := by
  have once : (sortedSources fs source l).Nodup := by
    apply List.Nodup.map (Path.join_injective source)
    rw [(List.mergeSort_perm _ _).nodup_iff]
    exact (tidy.nodup_names l).filter _
  have ordered : (sortedSources fs source l).Pairwise (· ≤ ·) :=
    (sorted_names _).map _ fun _ _ => join_le
  exact (ordered.and once).imp fun ⟨below, other⟩ => Std.lt_of_le_of_ne below other

end Directory

/-- Planning a directory below the root that can be listed. Another order of the files in it has the
same plan. Only files that are called `stem.vm` count, and there has to be one. The least one with an
unusable stem is at fault; else all of them are read in order, each once. -/
theorem planned_any_order (tidy : fs.Tidy) (reordered : fs.Reordered fs')
    (resolved : fs.resolve source = .ok l) (inside : fs.isFolder l) (below : l ≠ [])
    (readable : fs.medium.unreadable? l = none) :
    planned fs' source = planned fs source ∧
    ((∀ stem, ¬ HoldsSource fs l stem) → planned fs source = .error (.noSources source)) ∧
    (∀ bad, HoldsSource fs l bad → ¬ Usable bad →
      ∃ least, HoldsSource fs l least ∧ ¬ Usable least ∧
        (∀ stem, HoldsSource fs l stem → ¬ Usable stem →
          sourcePath source least ≤ sourcePath source stem) ∧
        planned fs source = .error (.invalidName (sourcePath source least))) ∧
    ((∃ stem, HoldsSource fs l stem) → (∀ stem, HoldsSource fs l stem → Usable stem) →
      ∃ p, planned fs source = .ok p ∧ p.sources.Pairwise (· < ·) ∧
        ∀ path, path ∈ p.sources ↔ ∃ stem, HoldsSource fs l stem ∧ path = sourcePath source stem) := by
  have member {path : Path} : path ∈ sortedSources fs source l ↔
      ∃ stem, HoldsSource fs l stem ∧ path = sourcePath source stem :=
    mem_sortedSources resolved inside tidy
  have unnamed {stem : Path} (holds : HoldsSource fs l stem) :
      unitName? (sourcePath source stem) = none ↔ ¬ Usable stem := by
    rw [← Option.not_isSome_iff_eq_none, isSome_unitName?_sourcePath tidy holds]
  obtain ⟨own, last⟩ := Option.isSome_iff_exists.mp (List.getLast?_isSome.mpr below)
  have made {stem : Path} (holds : HoldsSource fs l stem) := by
    have listed := (mem_listedSources resolved inside tidy).mpr ⟨stem, holds, rfl⟩
    exact planned_filled resolved inside readable (List.ne_nil_of_mem listed) last
  refine ⟨?_, ?_, ?_, ?_⟩
  · have resolved' : fs'.resolve source = .ok l := by rw [reordered.resolve tidy, resolved]
    have inside' : fs'.isFolder l := by rwa [FileSystem.isFolder_congr (reordered.node? tidy l)]
    have readable' : fs'.medium.unreadable? l = none := by rwa [reordered.medium]
    rw [planned_directory resolved' inside' readable', planned_directory resolved inside readable]
    exact Plan.ofDirectory_congr (listedSources_reordered reordered tidy) _
  · intro nothing
    have none : listedSources fs source l = [] := by
      rw [List.eq_nil_iff_forall_not_mem]
      intro name listed
      obtain ⟨stem, holds, _⟩ := (mem_listedSources resolved inside tidy).mp listed
      exact nothing stem holds
    rw [planned_directory resolved inside readable, none]
    rfl
  · intro bad holds unusable
    obtain ⟨path, there, missing, least, failed⟩ := checkNames_least
      ((sortedSources_increasing tidy).imp List.le_of_lt) (member.mpr ⟨bad, holds, rfl⟩)
      ((unnamed holds).mpr unusable)
    obtain ⟨first, holdsFirst, rfl⟩ := member.mp there
    refine ⟨first, holdsFirst, (unnamed holdsFirst).mp missing, ?_, ?_⟩
    · intro stem holdsStem unusableStem
      exact least _ (member.mpr ⟨stem, holdsStem, rfl⟩) ((unnamed holdsStem).mpr unusableStem)
    · rw [made holds, failed]
      rfl
  · rintro ⟨stem, holds⟩ usable
    have checked : checkNames (sortedSources fs source l) = .ok () := by
      rw [checkNames_eq_ok]
      intro path there
      obtain ⟨stem, holds, rfl⟩ := member.mp there
      exact (isSome_unitName?_sourcePath tidy holds).mpr (usable stem holds)
    have whole := made holds
    rw [checked] at whole
    exact ⟨_, whole, sortedSources_increasing tidy, fun _ => member⟩

/-- A name that is no text. -/
def garbled : Path := "Ma" ++ 0xff :: Path.ofText "in.vm"

/-- A directory in which two files cannot be sources, besides one that can, a file without a stem and
a directory with the name of a source. -/
def mixed : FileSystem :=
  ⟨[(["d"], .directory), (["d", ".vm"], .file .empty), (["d", "Main.vm"], .file .empty),
    (["d", "Sub.vm"], .directory), (["d", garbled], .file .empty), (["d", "b-1.vm"], .file .empty)],
    [], .sound⟩

/-- The same directory, listed backwards. -/
def mixedBackwards : FileSystem :=
  { mixed with nodes := mixed.nodes.reverse }

theorem planned_any_order_mixed :
    let l : Location := ["d"]
    mixed.Tidy ∧ mixed.Reordered mixedBackwards ∧ mixed.resolve "d" = .ok l ∧
      mixed.isFolder l ∧ l ≠ [] ∧ mixed.medium.unreadable? l = none ∧
      planned mixed "d" = .error (.invalidName ("d/" ++ garbled)) ∧
      planned mixedBackwards "d" = .error (.invalidName ("d/" ++ garbled)) := by
  intro l
  have tidy : mixed.Tidy := ⟨by decide +kernel, by decide +kernel⟩
  have reordered : mixed.Reordered mixedBackwards := ⟨rfl, rfl, List.reverse_perm _⟩
  have resolved : mixed.resolve "d" = .ok l := by decide +kernel
  have inside : mixed.isFolder l := by decide +kernel
  have below : l ≠ [] := List.cons_ne_nil _ _
  have readable : mixed.medium.unreadable? l = none := rfl
  have listed : listedSources mixed "d" l = (["Main.vm", garbled, "b-1.vm"] : List Path) := by
    decide +kernel
  have sorted : sortedSources mixed "d" l =
      (["d/Main.vm", "d/" ++ garbled, "d/b-1.vm"] : List Path) := by
    rw [sortedSources, listed, List.mergeSort_of_pairwise (by decide +kernel)]
    decide +kernel
  have failed : planned mixed "d" = .error (.invalidName ("d/" ++ garbled)) := by
    rw [planned_filled resolved inside readable (by rw [listed]; exact List.cons_ne_nil _ _) rfl,
      sorted]
    decide +kernel
  obtain ⟨same, _⟩ := planned_any_order tidy reordered resolved inside below readable
  exact ⟨tidy, reordered, resolved, inside, below, readable, failed, same.trans failed⟩

end HackToolchain.Build
