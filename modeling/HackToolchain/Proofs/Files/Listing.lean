import HackToolchain.Proofs.Files.Extensions

/-! What directories list. A tree can be listed in any order, and no path leads elsewhere in another
order; the names in a directory are those of the places right below it, and a path into the directory
leads to what is there. -/
namespace HackToolchain.Files

namespace Path

theorem splitName_append {stem extension : Path} (filled : stem ≠ []) (plain : dot ∉ extension) :
    splitName (stem ++ dot :: extension) = (stem, some extension) := by
  have reversed : (stem ++ dot :: extension).reverse =
      extension.reverse ++ dot :: stem.reverse := by
    simp
  have others : ∀ b ∈ extension.reverse, decide (b ≠ dot) := by
    intro b member
    rw [decide_eq_true_eq]
    rintro rfl
    exact plain (List.mem_reverse.mp member)
  have before : (stem ++ dot :: extension).reverse.takeWhile (· ≠ dot) = extension.reverse := by
    rw [reversed, List.takeWhile_append_of_pos others]
    simp
  have behind : (stem ++ dot :: extension).reverse.dropWhile (· ≠ dot) = dot :: stem.reverse := by
    rw [reversed, List.dropWhile_append_of_pos others]
    simp
  simp only [splitName, before, behind, List.drop_one, List.tail_cons, List.reverse_reverse, filled,
    if_false]

theorem stem_ne_nil {name stem extension : Path}
    (split : splitName name = (stem, some extension)) : stem ≠ [] := by
  rintro rfl
  simp only [splitName] at split
  split at split
  · simp at split
  · rename_i filled
    exact filled (Prod.mk.inj split).1

section Join

variable {folder name : Path} (named : IsName name) (plain : slash ∉ name)
include named plain

theorem fileName?_join : fileName? (join folder name) = some name := by
  obtain ⟨above, isFolder, joined⟩ := exists_join folder
  rw [joined]
  exact named.fileName? (getLast?_components isFolder plain)

theorem extension?_join {extension : Path} (undotted : dot ∉ extension) :
    extension? (join folder name) = some extension ↔
      ∃ stem, stem ≠ [] ∧ name = stem ++ dot :: extension := by
  rw [extension?, fileName?_join named plain, Option.bind_some]
  constructor
  · intro split
    have parts : splitName name = ((splitName name).1, some extension) := Prod.ext rfl split
    exact ⟨_, stem_ne_nil parts, splitName_eq_some parts⟩
  · rintro ⟨stem, filled, rfl⟩
    rw [splitName_append filled undotted]

theorem stem?_join : stem? (join folder name) = some (splitName name).1 := by
  rw [stem?, fileName?_join named plain, Option.map_some]

end Join

theorem head?_join {folder : Path} (filled : folder ≠ []) (name : Path) :
    (join folder name).head? = folder.head? := by
  rw [join]
  split <;> exact List.head?_append_of_ne_nil _ filled

theorem join_injective (folder : Path) : Function.Injective (join folder) := by
  intro first second same
  obtain ⟨above, _, joined⟩ := exists_join folder
  rwa [joined, joined, List.append_right_inj] at same

end Path

namespace FileSystem

variable {fs fs' : FileSystem} {l : Location} {path name : Path}

/-- The slash between a folder and a name does not matter, whether the folder's path ends in one
already or not. -/
theorem walk_join (start : Location) {folder : Path} (filled : folder ≠ [])
    (plain : Path.slash ∉ name) (walked : fs.walk start (Path.components folder) = .ok l) :
    fs.walk start (Path.components (Path.join folder name)) = fs.walk l [name] := by
  have one : Path.components name = [name] := List.splitOn_eq_singleton plain
  by_cases closed : folder.getLast? = some Path.slash
  · obtain ⟨above, rfl⟩ := List.getLast?_eq_some_iff.mp closed
    have before : Path.components (above ++ [Path.slash]) = Path.components above ++ [[]] := by
      simp [Path.components, List.splitOn_append_cons_self]
    have after : Path.components (Path.join (above ++ [Path.slash]) name) =
        Path.components above ++ [name] := by
      rw [Path.join, if_pos (.inr closed), ← one]
      simp [Path.components, List.splitOn_append_cons_self]
    rw [before, walk_append] at walked
    rw [after, walk_append]
    cases reached : fs.walk start (Path.components above) with
    | error reason =>
      rw [reached] at walked
      contradiction
    | ok inside =>
      have stays : fs.walk inside [[]] = .ok l := by rwa [reached] at walked
      simp only [walk, true_or, if_true] at stays
      split at stays
      · contradiction
      · rw [Except.ok.inj stays]
        rfl
  · have after : Path.components (Path.join folder name) = Path.components folder ++ [name] := by
      rw [Path.join, if_neg (not_or.mpr ⟨filled, closed⟩), ← one]
      simp [Path.components, List.splitOn_append_cons_self]
    rw [after, walk_append, walked]
    rfl

/-- A name in a directory leads to what is there. -/
theorem find?_join {folder : Path} (resolved : fs.resolve folder = .ok l)
    (inside : fs.isFolder l) (named : Path.IsName name) (plain : Path.slash ∉ name) :
    fs.find? (Path.join folder name) = fs.node? (l ++ [name]) := by
  have filled : folder ≠ [] := by
    rintro rfl
    contradiction
  have head := Path.head?_join filled name
  have start : fs.origin (Path.join folder name) = fs.origin folder := by
    rw [origin, origin, head]
  have joined : Path.join folder name ≠ [] := by
    intro none
    rw [none] at head
    exact filled (List.head?_eq_none_iff.mp head.symm)
  rw [resolve, if_neg filled] at resolved
  have walked := walk_join (fs.origin folder) filled plain resolved
  rw [find?, resolve, if_neg joined, start, walked]
  obtain ⟨nonempty, other, back⟩ := named
  simp only [walk, inside, nonempty, other, back, Bool.not_true, Bool.false_eq_true, or_self,
    if_false]
  cases there : fs.node? (l ++ [name]) with
  | none => rfl
  | some node => exact there

/-- The names of all places can be components of paths, and every place is listed once. -/
structure Tidy (fs : FileSystem) : Prop where
  once : (fs.nodes.map Prod.fst).Nodup
  named : ∀ entry ∈ fs.nodes, ∀ name ∈ entry.1, Path.IsName name ∧ Path.slash ∉ name

theorem listed_iff {place : Location} :
    (if place.dropLast = l then place.getLast? else none) = some name ↔ place = l ++ [name] := by
  rw [Option.ite_none_right_eq_some]
  constructor
  · rintro ⟨rfl, last⟩
    obtain ⟨above, rfl⟩ := List.getLast?_eq_some_iff.mp last
    rw [List.dropLast_concat]
  · rintro rfl
    exact ⟨List.dropLast_concat, List.getLast?_concat⟩

/-- The names in a directory are those of the places right below it. -/
theorem mem_names : name ∈ fs.names l ↔ (fs.node? (l ++ [name])).isSome := by
  have below : l ++ [name] ≠ [] := List.concat_ne_nil _ _
  rw [FileSystem.node?, if_neg below, List.lookup_isSome_iff, names, List.mem_filterMap]
  simp only [listed_iff, beq_iff_eq, eq_comm (a := l ++ [name])]

theorem Tidy.of_mem_names (tidy : fs.Tidy) (member : name ∈ fs.names l) :
    Path.IsName name ∧ Path.slash ∉ name := by
  obtain ⟨entry, there, listed⟩ := List.mem_filterMap.mp member
  apply tidy.named entry there
  rw [listed_iff.mp listed]
  exact List.mem_append_right l (List.mem_singleton_self name)

theorem Tidy.nodup_names (tidy : fs.Tidy) (l : Location) : (fs.names l).Nodup := by
  have places : fs.names l = (fs.nodes.map Prod.fst).filterMap fun place =>
      if place.dropLast = l then place.getLast? else none := by
    rw [List.filterMap_map]
    rfl
  rw [places]
  apply tidy.once.filterMap
  intro place other name listed listed'
  rw [listed_iff.mp listed, listed_iff.mp listed']

theorem lookup_eq_some_iff_mem {nodes : List (Location × Node)}
    (once : (nodes.map Prod.fst).Nodup) {node : Node} :
    nodes.lookup l = some node ↔ (l, node) ∈ nodes := by
  constructor
  · intro found
    obtain ⟨before, after, rfl, _⟩ := List.lookup_eq_some_iff.mp found
    exact List.mem_append_right before List.mem_cons_self
  · intro member
    obtain ⟨other, found⟩ := Option.isSome_iff_exists.mp
      (List.lookup_isSome_iff.mpr ⟨(l, node), member, beq_self_eq_true l⟩)
    obtain ⟨before, after, rfl, _⟩ := List.lookup_eq_some_iff.mp found
    have there : (l, other) ∈ before ++ (l, other) :: after :=
      List.mem_append_right before List.mem_cons_self
    have same := List.inj_on_of_nodup_map once member there rfl
    rw [found, (Prod.mk.inj same).2]

/-- The same places with the same contents, in whatever order. -/
structure Reordered (fs fs' : FileSystem) : Prop where
  current : fs'.current = fs.current
  medium : fs'.medium = fs.medium
  nodes : fs'.nodes.Perm fs.nodes

theorem walk_congr (same : ∀ l, fs'.node? l = fs.node? l) (l : Location)
    (components : List Path) : fs'.walk l components = fs.walk l components := by
  induction components generalizing l with
  | nil => rfl
  | cons component rest ih => simp only [walk, isFolder_congr (same _), same, ih]

namespace Reordered

theorem names (reordered : fs.Reordered fs') (l : Location) :
    (fs'.names l).Perm (fs.names l) :=
  reordered.nodes.filterMap _

section Tidy

variable (reordered : fs.Reordered fs') (tidy : fs.Tidy)
include reordered tidy

theorem node? (l : Location) : fs'.node? l = fs.node? l := by
  have once : (fs'.nodes.map Prod.fst).Nodup :=
    (reordered.nodes.map Prod.fst).nodup_iff.mpr tidy.once
  have same : fs'.nodes.lookup l = fs.nodes.lookup l := by
    apply Option.ext
    intro node
    rw [lookup_eq_some_iff_mem once, lookup_eq_some_iff_mem tidy.once, reordered.nodes.mem_iff]
  rw [FileSystem.node?, FileSystem.node?, same]

/-- No path leads elsewhere. -/
theorem resolve (path : Path) : fs'.resolve path = fs.resolve path := by
  have start : fs'.origin path = fs.origin path := by
    rw [origin, origin, reordered.current]
  rw [FileSystem.resolve, FileSystem.resolve, start, walk_congr (reordered.node? tidy)]

theorem find? (path : Path) : fs'.find? path = fs.find? path := by
  rw [FileSystem.find?, FileSystem.find?, reordered.resolve tidy path]
  cases fs.resolve path with
  | error reason => rfl
  | ok l => exact reordered.node? tidy l

end Tidy

end Reordered

end FileSystem

end HackToolchain.Files
