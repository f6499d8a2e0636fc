import HackToolchain.Proofs.Build.Planning

/-! How the planned output is called. The program of a directory is named for the directory, and that of
a file for the file; but the extension is put in the place of what stands behind the last dot, also
where that belongs to the name. -/
namespace HackToolchain.Build

open Files

variable {fs : FileSystem} {source name : Path} {p : Plan}

theorem resolve_of_ownName? (own : fs.ownName? source = some name) :
    ∃ above, fs.resolve source = .ok (above ++ [name]) := by
  rw [FileSystem.ownName?] at own
  split at own
  · rename_i l resolved
    obtain ⟨above, rfl⟩ := List.getLast?_eq_some_iff.mp own
    exact ⟨above, resolved⟩
  · contradiction

/-- In a directory the name with an extension is put, and the extension is added to the whole name
exactly if there is no dot behind its first character. -/
theorem join_withExtension (named : Path.IsName name) (plain : Path.slash ∉ name)
    (folder extension : Path) :
    Path.withExtension (Path.join folder name) extension =
        Path.join folder (Path.withExtension name extension) ∧
      (Path.withExtension (Path.join folder name) extension =
        Path.join folder (name ++ Path.dot :: extension) ↔ Path.dot ∉ name.tail) := by
  obtain ⟨above, isFolder, joined⟩ := Path.exists_join folder
  have output := Path.withExtension_append named plain isFolder extension
  simp only [joined, output, List.append_right_inj]
  exact ⟨trivial, Path.withExtension_added_iff named plain extension⟩

/-- A file is renamed in its place, except for one whose stem is a single dot. -/
theorem withExtension_file {l : Location} {content : ByteArray} {old new : Path}
    (holds : fs.Holds source l content) (extended : Path.extension? source = some old)
    (filled : new ≠ []) :
    ∃ base, source = base ++ old ∧
      (Path.withExtension source new = base ++ new ↔
        Path.fileName? source ≠ some (Path.dot :: Path.dot :: old)) := by
  obtain ⟨name, file, split⟩ := Option.bind_eq_some_iff.mp extended
  obtain ⟨folder, _, isFolder, named, plain, path, _⟩ := holds.ends_with_name file
  have parts : Path.splitName name = ((Path.splitName name).1, some old) := Prod.ext rfl split
  have whole := Path.splitName_eq_some parts
  generalize (Path.splitName name).1 = stem at parts whole
  refine ⟨folder ++ (stem ++ [Path.dot]), ?_, ?_⟩
  · rw [path, whole]
    simp only [List.append_assoc, List.singleton_append]
  · have dotted : Path.dot :: Path.dot :: old = Path.here ++ Path.dot :: old := rfl
    rw [file, ne_eq, Option.some_inj, path, Path.withExtension_append named plain isFolder,
      List.append_assoc, List.append_assoc, List.singleton_append, List.append_right_inj,
      Path.withExtension_replaced_iff named plain parts filled, whole, dotted,
      List.append_left_inj]

/-- The output ends in another extension than the sources. -/
theorem Plan.Valid.output_not_mem (valid : p.Valid fs) : p.output ∉ p.sources := by
  intro member
  obtain ⟨l, content, holds⟩ := valid.holds member
  have extended := (Bool.and_eq_true_iff.mp (valid.files _ member)).2
  obtain ⟨name, file, split⟩ := Option.bind_eq_some_iff.mp (of_decide_eq_true extended)
  obtain ⟨folder, _, isFolder, named, plain, path, _⟩ := holds.ends_with_name file
  have last := Path.getLast?_components isFolder plain
  obtain ⟨base, output⟩ := valid.output
  rw [← path, output] at last
  obtain ⟨stem, ends⟩ := named.of_withExtension (by decide) last
  have parts : Path.splitName name = ((Path.splitName name).1, some (Path.ofText "vm")) :=
    Prod.ext rfl split
  have whole := Path.splitName_eq_some parts
  exact vm_ne_asm _ stem (whole.symm.trans ends)

/-- The output of a directory is called like the directory, however its path is spelled, exactly if its
own name has no dot behind the first character; the output of a file is called like the file exactly if
that is not a dot with the extension. The output is no source, nor does it lead to the place of one. -/
theorem output_named (proper : fs.Proper) (found : planned fs source = .ok p) :
    (fs.isDirectory source = true → ∃ above name, fs.resolve source = .ok (above ++ [name]) ∧
      p.output = Path.join source (Path.withExtension name "asm") ∧
      (p.output = Path.join source (name ++ ".asm") ↔ Path.dot ∉ name.tail)) ∧
    (fs.isDirectory source = false → ∃ base, source = base ++ "vm" ∧
      (p.output = base ++ "asm" ↔ Path.fileName? source ≠ some (Path.ofText "..vm"))) ∧
    ∀ path ∈ p.sources, path ≠ p.output ∧
      ∀ l, fs.target p.output = .ok l → fs.resolve path ≠ .ok l := by
  have valid := valid_of_planned found
  have apart : ∀ path ∈ p.sources, path ≠ p.output ∧
      ∀ l, fs.target p.output = .ok l → fs.resolve path ≠ .ok l := fun path member =>
    ⟨fun same => valid.output_not_mem (same ▸ member), fun _ => valid.ne_output member⟩
  rcases planned_eq_ok found with ⟨directory, _, _, made⟩ | ⟨other, file, made⟩
  · refine ⟨fun _ => ?_, fun other => ?_, apart⟩
    · obtain ⟨_, _, name, own, output⟩ := Plan.ofDirectory_eq_ok made
      obtain ⟨above, resolved⟩ := resolve_of_ownName? own
      obtain ⟨named, plain⟩ := proper.resolve resolved name (by simp)
      have suffix : Path.dot :: Path.ofText "asm" = Path.ofText ".asm" := by decide +kernel
      rw [output, ← suffix]
      exact ⟨above, name, resolved, join_withExtension named plain source "asm"⟩
    · rw [directory] at other
      contradiction
  · refine ⟨fun directory => ?_, fun _ => ?_, apart⟩
    · rw [other] at directory
      contradiction
    · obtain ⟨sources, _, output⟩ := Plan.ofFile_eq_ok made
      obtain ⟨l, content, holds⟩ := valid.holds (sources ▸ List.mem_singleton_self source)
      rw [output]
      exact withExtension_file holds (of_decide_eq_true (Bool.and_eq_true_iff.mp file).2) (by decide)

/-- The current directory, a hidden one, is called by its own name. -/
theorem output_named_here :
    let fs : FileSystem :=
      ⟨[([".work"], .directory), ([".work", "Main.vm"], .file .empty)], [".work"], .sound⟩
    ∃ p, planned fs "." = .ok p ∧ p.output = "./.work.asm" ∧ ∀ path ∈ p.sources, path ≠ p.output := by
  intro fs
  have found : planned fs "." = .ok ⟨["./Main.vm"], "./.work.asm"⟩ := by decide +kernel
  have proper : fs.Proper := by
    intro name member
    obtain rfl := List.mem_singleton.mp member
    exact ⟨⟨by decide +kernel, by decide +kernel, by decide +kernel⟩, by decide +kernel⟩
  obtain ⟨directory, _, apart⟩ := output_named proper found
  obtain ⟨above, name, resolved, _, named⟩ := directory (by decide +kernel)
  have here : fs.resolve "." = .ok ([".work"] : Location) := by decide +kernel
  have last := congrArg List.getLast? (Except.ok.inj (resolved.symm.trans here))
  obtain rfl : name = ".work" := by simpa using last
  have output : Path.join "." (Path.ofText ".work" ++ Path.ofText ".asm") = "./.work.asm" := by
    decide +kernel
  exact ⟨_, found, (named.mpr (by decide +kernel)).trans output,
    fun path member => (apart path member).1⟩

/-- What follows the last dot of a directory's name is lost, and a file that is called nothing but its
extension is planned to be written over the directory above. -/
theorem output_shortened :
    let fs : FileSystem := ⟨[(["a.b"], .directory), (["a.b", "Main.vm"], .file .empty),
      (["..vm"], .file .empty)], [], .sound⟩
    fs.resolve "a.b" = .ok (["a.b"] : Location) ∧
      planned fs "a.b" = .ok ⟨["a.b/Main.vm"], "a.b/a.asm"⟩ ∧
      Path.ofText "a.b/a.asm" ≠ Path.join "a.b" ("a.b" ++ ".asm") ∧
      planned fs "..vm" = .ok ⟨["..vm"], ".."⟩ ∧
      Path.ofText ".." ≠ ".." ++ "asm" := by
  decide +kernel

end HackToolchain.Build
