import HackToolchain.Proofs.Files.Places

/-! Names of files with their extensions. A path with another extension leads to a place whose name
ends in that extension, if it leads anywhere. -/
namespace HackToolchain.Files

namespace Path

/-- What follows everything before a byte starts with it. -/
theorem dropWhile_ne (b : UInt8) (path : Path) :
    path.dropWhile (· ≠ b) = [] ∨ ∃ rest, path.dropWhile (· ≠ b) = b :: rest := by
  induction path with
  | nil => exact .inl rfl
  | cons c rest ih =>
    by_cases same : c = b
    · exact .inr ⟨rest, by simp [same]⟩
    · rwa [List.dropWhile_cons_of_pos (by simpa using same)]

/-- A path that ends with the slash of a folder, or nothing. -/
def IsFolder (folder : Path) : Prop :=
  folder = [] ∨ ∃ above, folder = above ++ [slash]

theorem splitLast_eq (path : Path) :
    path = (splitLast path).1 ++ (splitLast path).2 ∧ IsFolder (splitLast path).1 ∧
      slash ∉ (splitLast path).2 := by
  have whole := List.takeWhile_append_dropWhile (p := (· ≠ slash)) (l := path.reverse)
  refine ⟨?_, ?_, ?_⟩
  · simp only [splitLast]
    rw [← List.reverse_append, whole, List.reverse_reverse]
  · simp only [splitLast, IsFolder]
    rcases dropWhile_ne slash path.reverse with none | ⟨above, closed⟩
    · exact .inl (by rw [none]; rfl)
    · exact .inr ⟨above.reverse, by rw [closed, List.reverse_cons]⟩
  · simp only [splitLast, List.mem_reverse]
    intro member
    simpa using List.mem_takeWhile_imp member

theorem getLast?_components {folder name : Path} (above : IsFolder folder) (plain : slash ∉ name) :
    (components (folder ++ name)).getLast? = some name := by
  have one : name.splitOn slash = [name] := List.splitOn_eq_singleton plain
  rw [components]
  rcases above with rfl | ⟨above, rfl⟩
  · rw [List.nil_append, one]
    rfl
  · rw [List.append_assoc, List.singleton_append, List.splitOn_append_cons_self, one,
      List.getLast?_concat]

theorem getLast?_components_eq (path : Path) :
    (components path).getLast? = some (splitLast path).2 := by
  obtain ⟨whole, above, plain⟩ := splitLast_eq path
  calc (components path).getLast?
      = (components ((splitLast path).1 ++ (splitLast path).2)).getLast? := by rw [← whole]
    _ = some (splitLast path).2 := getLast?_components above plain

theorem splitLast_append {folder name : Path} (above : IsFolder folder) (plain : slash ∉ name) :
    splitLast (folder ++ name) = (folder, name) := by
  have same := (getLast?_components_eq (folder ++ name)).symm.trans (getLast?_components above plain)
  have last : (splitLast (folder ++ name)).2 = name := Option.some.inj same
  have whole := (splitLast_eq (folder ++ name)).1
  rw [last, List.append_left_inj] at whole
  exact Prod.ext whole.symm last

theorem not_mem_of_mem_splitOn {path piece : Path} {b : UInt8} (cut : piece ∈ path.splitOn b) :
    b ∉ piece := by
  induction path generalizing piece with
  | nil =>
    obtain rfl : piece = [] := by simpa using cut
    exact List.not_mem_nil
  | cons c rest ih =>
    rw [List.splitOn_cons_eq_if_modifyHead] at cut
    split at cut
    · rcases List.mem_cons.mp cut with rfl | later
      · exact List.not_mem_nil
      · exact ih later
    · rename_i kept
      cases pieces : rest.splitOn b with
      | nil => simp [pieces] at cut
      | cons first others =>
        rw [pieces] at ih cut
        rcases List.mem_cons.mp cut with rfl | later
        · have other : b ≠ c := by
            rintro rfl
            simp at kept
          exact List.not_mem_cons_of_ne_of_not_mem other (ih List.mem_cons_self)
        · exact ih (List.mem_cons_of_mem _ later)

theorem exists_join (folder : Path) :
    ∃ above, IsFolder above ∧ ∀ name, join folder name = above ++ name := by
  by_cases closed : folder = [] ∨ folder.getLast? = some slash
  · refine ⟨folder, ?_, fun name => by rw [join, if_pos closed]⟩
    exact closed.imp_right fun ends => List.getLast?_eq_some_iff.mp ends
  · refine ⟨folder ++ [slash], .inr ⟨folder, rfl⟩, fun name => ?_⟩
    rw [join, if_neg closed, List.append_assoc, List.singleton_append]

theorem fileName?_of_getLast? {path name : Path} (last : (components path).getLast? = some name)
    (filled : name ≠ []) (other : name ≠ here) :
    fileName? path = if name = up then none else some name := by
  obtain ⟨above, split⟩ := List.getLast?_eq_some_iff.mp last
  have kept : ((components path).filter fun c => c ≠ [] ∧ c ≠ here).getLast? = some name := by
    rw [split, List.filter_append, List.filter_cons_of_pos (by simp [filled, other]),
      List.filter_nil, List.getLast?_concat]
  rw [fileName?, kept, Option.filter_some]
  by_cases back : name = up <;> simp [back]

theorem IsName.fileName? {path name : Path} (named : IsName name)
    (last : (components path).getLast? = some name) : fileName? path = some name := by
  rw [fileName?_of_getLast? last named.1 named.2.1, if_neg named.2.2]

theorem splitName_eq_some {name stem extension : Path}
    (split : splitName name = (stem, some extension)) : name = stem ++ dot :: extension := by
  have whole := List.takeWhile_append_dropWhile (p := (· ≠ dot)) (l := name.reverse)
  rcases dropWhile_ne dot name.reverse with none | ⟨rest, dotted⟩
  · simp only [splitName, none] at split
    exact absurd (Prod.mk.inj split).2 (by simp)
  · simp only [splitName, dotted, List.drop_one, List.tail_cons] at split
    split at split
    · simp at split
    · obtain ⟨rfl, same⟩ := Prod.mk.inj split
      obtain rfl := Option.some.inj same
      have reversed := congrArg List.reverse whole
      rw [dotted] at reversed
      simpa using reversed.symm

theorem length_stem_lt {name stem extension : Path}
    (split : splitName name = (stem, some extension)) : stem.length < name.length := by
  rw [splitName_eq_some split, List.length_append, List.length_cons]
  omega

/-- A name has an extension exactly if it has a dot behind its first byte. -/
theorem splitName_cases (name : Path) :
    (dot ∉ name.tail ∧ splitName name = (name, none)) ∨
      dot ∈ name.tail ∧ ∃ stem extension, splitName name = (stem, some extension) := by
  have nothing : ((name.reverse.dropWhile (· ≠ dot)).drop 1).reverse = [] ↔ dot ∉ name.tail := by
    cases name with
    | nil => simp
    | cons first rest =>
      rw [List.reverse_cons, List.dropWhile_append, List.tail_cons, List.reverse_eq_nil_iff]
      split
      · rename_i passed
        have others : ∀ b ∈ rest, b ≠ dot := by simpa using passed
        refine iff_of_true ?_ fun dotted => others dot dotted rfl
        by_cases dotted : first = dot <;> simp [dotted]
      · rename_i stopped
        obtain ⟨_, dotted⟩ := (dropWhile_ne dot rest.reverse).resolve_left (by simpa using stopped)
        have present : dot ∈ rest := by simpa using stopped
        rw [dotted]
        exact iff_of_false (by simp) (not_not.mpr present)
  by_cases none : ((name.reverse.dropWhile (· ≠ dot)).drop 1).reverse = []
  · exact .inl ⟨nothing.mp none, by rw [splitName, if_pos none]⟩
  · refine .inr ⟨not_not.mp (nothing.not.mp none), ?_⟩
    rw [splitName, if_neg none]
    exact ⟨_, _, rfl⟩

theorem not_mem_stem {name : Path} {b : UInt8} (absent : b ∉ name) : b ∉ (splitName name).1 := by
  simp only [splitName]
  split
  · exact absent
  · intro member
    have there := (List.dropWhile_suffix _).mem (List.mem_of_mem_drop (List.mem_reverse.mp member))
    exact absent (List.mem_reverse.mp there)

/-- The name that a path has with another extension. -/
theorem getLast?_withExtension (path : Path) {extension : Path} (plain : slash ∉ extension) :
    (fileName? path = none ∧ withExtension path extension = path) ∨
      (components (withExtension path extension)).getLast? = some up ∨
      ∃ stem, (components (withExtension path extension)).getLast? =
        some (stem ++ dot :: extension) := by
  by_cases unnamed : fileName? path = none
  · exact .inl ⟨unnamed, by rw [withExtension, if_pos unnamed]⟩
  obtain ⟨_, above, name⟩ := splitLast_eq path
  rw [withExtension, if_neg unnamed]
  dsimp only
  split
  · exact .inr (.inl (getLast?_components above (by decide)))
  · refine .inr (.inr ⟨(splitName (splitLast path).2).1, getLast?_components above ?_⟩)
    have stem := not_mem_stem name
    simp only [List.mem_append, List.mem_cons, stem, plain, or_false, false_or]
    decide

theorem IsName.of_withExtension {path extension name : Path} (named : IsName name)
    (plain : slash ∉ extension)
    (last : (components (withExtension path extension)).getLast? = some name) :
    ∃ stem, name = stem ++ dot :: extension := by
  rcases getLast?_withExtension path plain with ⟨unnamed, same⟩ | back | ⟨stem, ends⟩
  · rw [same] at last
    rw [named.fileName? last] at unnamed
    contradiction
  · exact absurd (Option.some.inj (last.symm.trans back)) named.2.2
  · exact ⟨stem, Option.some.inj (last.symm.trans ends)⟩

section Renamed

variable {folder name : Path} (named : IsName name) (plain : slash ∉ name)
include named plain

theorem withExtension_eq (above : IsFolder folder) (extension : Path) :
    withExtension (folder ++ name) extension = folder ++
      if (splitName name).1 = here then up else (splitName name).1 ++ dot :: extension := by
  have file : fileName? (folder ++ name) ≠ none := by
    rw [named.fileName? (getLast?_components above plain)]
    exact Option.some_ne_none _
  rw [withExtension, if_neg file, splitLast_append above plain]

theorem withExtension_name (extension : Path) :
    withExtension name extension =
      if (splitName name).1 = here then up else (splitName name).1 ++ dot :: extension :=
  (withExtension_eq named plain (show IsFolder [] from .inl rfl) extension :)

/-- The folder plays no part. -/
theorem withExtension_append (above : IsFolder folder) (extension : Path) :
    withExtension (folder ++ name) extension = folder ++ withExtension name extension := by
  rw [withExtension_eq named plain above, withExtension_name named plain]

/-- An extension is added to a whole name exactly if no dot stands behind its first byte. -/
theorem withExtension_added_iff (extension : Path) :
    withExtension name extension = name ++ dot :: extension ↔ dot ∉ name.tail := by
  rw [withExtension_name named plain]
  obtain ⟨whole, split⟩ | ⟨dotted, stem, old, split⟩ := splitName_cases name
  · rw [split, if_neg named.2.1]
    exact iff_of_true rfl whole
  · refine iff_of_false (fun same => ?_) (not_not.mpr dotted)
    have shorter := length_stem_lt split
    have one : here.length = 1 := rfl
    have two : up.length = 2 := rfl
    have length := congrArg List.length same
    rw [split, List.length_append, List.length_cons] at length
    dsimp only at length
    split at length
    · rename_i stem
      rw [stem] at shorter
      omega
    · rw [List.length_append, List.length_cons] at length
      omega

/-- An extension is put in the place of another exactly if what stands before that is no dot. -/
theorem withExtension_replaced_iff {stem old new : Path}
    (split : splitName name = (stem, some old)) (filled : new ≠ []) :
    withExtension name new = stem ++ dot :: new ↔ stem ≠ here := by
  rw [withExtension_name named plain, split]
  by_cases single : stem = here
  · rw [if_pos single, single]
    refine iff_of_false (fun same => filled ?_) (by simp)
    simpa [here, up] using same
  · rw [if_neg single]
    exact iff_of_true rfl single

end Renamed

end Path

namespace FileSystem

variable {fs : FileSystem} {l : Location} {path extension : Path} {content : ByteArray}

/-- A place for a file under a path with a given extension has a name that ends in it. -/
theorem getLast?_target (plain : Path.slash ∉ extension)
    (found : fs.target (Path.withExtension path extension) = .ok l) :
    ∃ stem, l.getLast? = some (stem ++ Path.dot :: extension) := by
  obtain ⟨_, _, folder, above, name, split, named, _, _, rfl⟩ := target_eq_ok found
  obtain ⟨stem, ends⟩ := named.of_withExtension plain (by rw [split, List.getLast?_concat])
  exact ⟨stem, by rw [List.getLast?_concat, ends]⟩

/-- A path to a file ends with the file's own name, unless it goes up at its end. -/
theorem Holds.ends_with_name {name : Path} (holds : fs.Holds path l content)
    (file : Path.fileName? path = some name) : ∃ folder above, Path.IsFolder folder ∧
      Path.IsName name ∧ Path.slash ∉ name ∧ path = folder ++ name ∧ l = above ++ [name] := by
  have last := Path.getLast?_components_eq path
  obtain ⟨whole, isFolder, plain⟩ := Path.splitLast_eq path
  generalize (Path.splitLast path).1 = prior at whole isFolder
  generalize (Path.splitLast path).2 = component at last whole plain
  obtain ⟨above, components⟩ := List.getLast?_eq_some_iff.mp last
  have resolved := holds.resolved
  rw [resolve] at resolved
  split at resolved
  · contradiction
  rw [components, walk_append] at resolved
  cases walked : fs.walk (fs.origin path) above with
  | error reason => simp [walked, bind, Except.bind] at resolved
  | ok folder =>
    simp only [walked, bind, Except.bind] at resolved
    by_cases here : component = [] ∨ component = Path.here
    · simp only [walk, here, if_true] at resolved
      split at resolved
      · contradiction
      · rename_i inside
        obtain rfl := Except.ok.inj resolved
        exact absurd holds.plain (by simpa using inside)
    obtain ⟨filled, other⟩ := not_or.mp here
    have known := Path.fileName?_of_getLast? last filled other
    by_cases back : component = Path.up
    · rw [if_pos back, file] at known
      contradiction
    · rw [if_neg back, file, Option.some_inj] at known
      have named : Path.IsName component := ⟨filled, other, back⟩
      rw [walk_name named] at resolved
      rw [known]
      exact ⟨prior, folder, isFolder, named, plain, whole, resolved.2.1⟩

/-- A file that is found under a path with an extension has a name that ends in it. -/
theorem Holds.getLast? (holds : fs.Holds path l content)
    (extended : Path.extension? path = some extension) :
    ∃ stem, l.getLast? = some (stem ++ Path.dot :: extension) := by
  obtain ⟨name, file, split⟩ := Option.bind_eq_some_iff.mp extended
  obtain ⟨_, above, _, _, _, _, rfl⟩ := holds.ends_with_name file
  refine ⟨(Path.splitName name).1, ?_⟩
  rw [List.getLast?_concat, ← Path.splitName_eq_some (Prod.ext rfl split)]

/-- The current directory is given by names of directories. -/
def Proper (fs : FileSystem) : Prop :=
  ∀ name ∈ fs.current, Path.IsName name ∧ Path.slash ∉ name

/-- A path leads along names only, however it is spelled. -/
theorem Proper.resolve (proper : fs.Proper) (resolved : fs.resolve path = .ok l) :
    ∀ name ∈ l, Path.IsName name ∧ Path.slash ∉ name := by
  intro name member
  rw [FileSystem.resolve] at resolved
  split at resolved
  · contradiction
  rcases mem_walk resolved member with start | ⟨component, named⟩
  · rw [origin] at start
    split at start
    · contradiction
    · exact proper name start
  · exact ⟨named, Path.not_mem_of_mem_splitOn component⟩

end FileSystem

end HackToolchain.Files
