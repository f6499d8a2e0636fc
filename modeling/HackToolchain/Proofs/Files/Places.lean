import Mathlib
import HackToolchain.Files.FileSystem

/-! Where paths lead while files change. A walk goes through directories only, so what happens to a
place that is no directory can disturb nothing but walks that end there. -/
namespace HackToolchain.Files

/-- A component that names an entry of a directory. -/
def Path.IsName (component : Path) : Prop :=
  component ≠ [] ∧ component ≠ here ∧ component ≠ up

instance (component : Path) : Decidable (Path.IsName component) :=
  inferInstanceAs (Decidable (component ≠ [] ∧ component ≠ Path.here ∧ component ≠ Path.up))

/-- One action after the other. -/
theorem run_bind {σ α β : Type} {action : StateM σ α} {next : α → StateM σ β} {s s' : σ}
    {answer : α} (ran : action.run s = (answer, s')) :
    (action >>= next).run s = (next answer).run s' := by
  rw [StateT.run_bind, ran]
  rfl

namespace Medium

variable {m : Medium} {l : Location} {content bytes : ByteArray} {reason : Reason}

/-- A file can have this content. -/
def Fits (m : Medium) (l : Location) (content : ByteArray) : Prop :=
  ∀ limit reason, m.limit? l = some (limit, reason) → content.size ≤ limit

theorem fits_empty (m : Medium) (l : Location) : m.Fits l .empty :=
  fun _ _ _ => Nat.zero_le _

theorem write_of_unlimited (unlimited : m.limit? l = none) :
    m.write l content bytes = (.ok (), content ++ bytes) := by
  simp only [write, unlimited]

/-- However much of it is taken, a file never gets larger than it can. -/
theorem fits_write (fits : m.Fits l content) : m.Fits l (m.write l content bytes).2 := by
  intro limit reason limited
  have before := fits limit reason limited
  simp only [write, limited]
  split
  · rwa [ByteArray.size_append]
  · rw [ByteArray.size_append, ByteArray.size_extract]
    omega

/-- What is accepted is added. -/
theorem write_of_ok (accepted : (m.write l content bytes).1 = .ok ()) :
    (m.write l content bytes).2 = content ++ bytes := by
  simp only [write] at accepted ⊢
  split at accepted
  · rfl
  · split at accepted
    · rename_i fits
      rw [if_pos fits]
    · contradiction

/-- What is not accepted would be too much. -/
theorem write_of_error (refused : (m.write l content bytes).1 = .error reason) :
    ∃ limit, m.limit? l = some (limit, reason) ∧ limit < content.size + bytes.size := by
  simp only [write] at refused
  split at refused
  · contradiction
  · rename_i limit why limited
    split at refused
    · contradiction
    · rename_i much
      obtain rfl := Except.error.inj refused
      exact ⟨limit, limited, Nat.lt_of_not_le much⟩

end Medium

namespace FileSystem

variable {fs fs' : FileSystem} {l place target : Location} {path : Path}

theorem isFolder_congr (same : fs'.node? l = fs.node? l) : fs'.isFolder l = fs.isFolder l := by
  rw [isFolder, isFolder, same]

theorem isFolder_file {content : ByteArray} (found : fs.node? l = some (.file content)) :
    fs.isFolder l = false := by
  rw [isFolder, found]
  rfl

/-- The root is a directory, so a place that is none lies below it. -/
theorem ne_nil_of_not_isFolder (plain : fs.isFolder l = false) : l ≠ [] := by
  rintro rfl
  contradiction

/-- Nothing differs, except perhaps what is at one place. -/
structure ChangesOnly (fs : FileSystem) (place : Location) (fs' : FileSystem) : Prop where
  current : fs'.current = fs.current
  medium : fs'.medium = fs.medium
  others : ∀ l ≠ place, fs'.node? l = fs.node? l

theorem changesOnly_put (fs : FileSystem) (below : l ≠ []) (node : Node) : fs.ChangesOnly l (fs.put l node) :=
  ⟨rfl, rfl, fun other differs => by rw [node?_put fs below, if_neg differs]⟩

theorem changesOnly_erase (fs : FileSystem) (below : l ≠ []) : fs.ChangesOnly l (fs.erase l) :=
  ⟨rfl, rfl, fun other differs => by rw [node?_erase fs below, if_neg differs]⟩

theorem walk_append (fs : FileSystem) (l : Location) (first second : List Path) :
    fs.walk l (first ++ second) = (do fs.walk (← fs.walk l first) second) := by
  induction first generalizing l with
  | nil => rfl
  | cons component rest ih =>
    simp only [List.cons_append, walk, ih]
    repeat' split
    all_goals rfl

/-- A name is met in a directory. -/
theorem walk_name {component : Path} (named : Path.IsName component) :
    fs.walk l [component] = .ok target ↔
      fs.isFolder l ∧ target = l ++ [component] ∧ (fs.node? target).isSome := by
  obtain ⟨nonempty, here, above⟩ := named
  simp only [walk, nonempty, here, above, or_self, if_false]
  constructor
  · intro walked
    split at walked
    · contradiction
    split at walked
    · contradiction
    rename_i folder there
    obtain rfl := Except.ok.inj walked
    rw [Option.isNone_iff_eq_none] at there
    exact ⟨by simpa using folder, rfl, Option.isSome_iff_ne_none.mpr there⟩
  · rintro ⟨folder, rfl, there⟩
    simp [folder, Option.isSome_iff_ne_none.mp there]

/-- Every name on the way to the end of a walk was there at its start or is one of its components. -/
theorem mem_walk {components : List Path} {name : Path}
    (walked : fs.walk l components = .ok target) (member : name ∈ target) :
    name ∈ l ∨ name ∈ components ∧ Path.IsName name := by
  induction components generalizing l with
  | nil =>
    obtain rfl := Except.ok.inj walked
    exact .inl member
  | cons component rest ih =>
    have later (before : name ∈ rest ∧ Path.IsName name) :
        name ∈ component :: rest ∧ Path.IsName name :=
      ⟨List.mem_cons_of_mem _ before.1, before.2⟩
    simp only [walk] at walked
    split at walked
    · contradiction
    split at walked
    · exact (ih walked).imp_right later
    split at walked
    · exact (ih walked).imp List.mem_of_mem_dropLast later
    split at walked
    · contradiction
    rename_i here above _
    rcases ih walked with before | rested
    · rcases List.mem_append.mp before with there | single
      · exact .inl there
      · obtain rfl := List.mem_singleton.mp single
        obtain ⟨filled, other⟩ := not_or.mp here
        exact .inr ⟨List.mem_cons_self, filled, other, above⟩
    · exact .inr (later rested)

/-- What happens to a place that is no directory does not matter to a walk that ends elsewhere. -/
theorem walk_of_changesOnly (changes : fs.ChangesOnly place fs')
    (plain : fs.isFolder place = false) {components : List Path} (ends : target ≠ place)
    (walked : fs.walk l components = .ok target) : fs'.walk l components = .ok target := by
  induction components generalizing l with
  | nil => exact walked
  | cons component rest ih =>
    simp only [walk] at walked ⊢
    split at walked
    · contradiction
    rename_i folder
    have through : l ≠ place := by
      rintro rfl
      simp [plain] at folder
    rw [isFolder_congr (changes.others l through), if_neg folder]
    split at walked
    · rename_i here
      rw [if_pos here]
      exact ih walked
    split at walked
    · rename_i here above
      rw [if_neg here, if_pos above]
      exact ih walked
    split at walked
    · contradiction
    rename_i here above there
    have next : l ++ [component] ≠ place := by
      intro same
      rw [same] at walked
      cases rest with
      | nil => exact ends (Except.ok.inj walked).symm
      | cons => simp [walk, plain] at walked
    rw [if_neg here, if_neg above, changes.others _ next, if_neg there]
    exact ih walked

theorem resolve_of_changesOnly (changes : fs.ChangesOnly place fs')
    (plain : fs.isFolder place = false) (ends : target ≠ place) (resolved : fs.resolve path = .ok target) :
    fs'.resolve path = .ok target := by
  have start : fs'.origin path = fs.origin path := by
    rw [origin, origin, changes.current]
  rw [resolve] at resolved ⊢
  split at resolved
  · contradiction
  · rename_i nonempty
    rw [if_neg nonempty, start]
    exact walk_of_changesOnly changes plain ends resolved

/-- Without a slash at the end nothing is dropped there. -/
theorem eq_concat_of_dropWhile {components above : List Path} {name : Path}
    (last : components.reverse.dropWhile (· = []) = name :: above)
    (ending : components.getLast? ≠ some []) : components = above.reverse ++ [name] ∧ name ≠ [] := by
  have whole : components.reverse = name :: above := by
    rw [← last]
    rw [← List.head?_reverse] at ending
    cases reversed : components.reverse with
    | nil => rfl
    | cons first rest =>
      rw [reversed, List.head?_cons, ne_eq, Option.some_inj] at ending
      simp [ending]
  have split : components = above.reverse ++ [name] := by
    rw [← List.reverse_cons, ← whole, List.reverse_reverse]
  refine ⟨split, fun unnamed => ?_⟩
  exact ending (by rw [split, List.getLast?_concat, unnamed])

/-- Where a new file goes: into a directory, under the last name of its path. -/
theorem target_eq_ok (found : fs.target path = .ok l) :
    path ≠ [] ∧ fs.isFolder l = false ∧ ∃ folder above name,
      Path.components path = above ++ [name] ∧ Path.IsName name ∧
      fs.walk (fs.origin path) above = .ok folder ∧ fs.isFolder folder ∧ l = folder ++ [name] := by
  simp only [FileSystem.target] at found
  split at found
  · contradiction
  rename_i nonempty
  split at found
  · contradiction
  rename_i name above last
  cases walked : fs.walk (fs.origin path) above.reverse with
  | error reason => simp [walked, bind, Except.bind] at found
  | ok folder =>
    simp only [walked, bind, Except.bind, pure, Except.pure, throw, throwThe,
      MonadExceptOf.throw] at found
    split at found
    · contradiction
    split at found
    · contradiction
    split at found
    · contradiction
    rename_i inside named plain
    obtain rfl := Except.ok.inj found
    simp only [not_or] at named
    obtain ⟨here, back, ending⟩ := named
    obtain ⟨split, filled⟩ := eq_concat_of_dropWhile last ending
    exact ⟨nonempty, by simpa using plain, folder, above.reverse, name, split,
      ⟨filled, here, back⟩, walked, by simpa using inside, rfl⟩

/-- A file that can be made is made where its path leads. -/
theorem target_of_opening (found : fs.opening path = .ok l) : fs.target path = .ok l := by
  simp only [FileSystem.opening] at found
  cases target : fs.target path with
  | error reason => simp [target, bind, Except.bind] at found
  | ok place =>
    simp only [target, bind, Except.bind] at found
    split at found
    · contradiction
    · exact congrArg Except.ok (Except.ok.inj found)

theorem plain_target (found : fs.target path = .ok l) : fs.isFolder l = false :=
  (target_eq_ok found).2.1

theorem below_target (found : fs.target path = .ok l) : l ≠ [] :=
  ne_nil_of_not_isFolder (plain_target found)

/-- A file that is put where its path says is found under that path. -/
theorem resolve_put (found : fs.target path = .ok l) (content : ByteArray) :
    (fs.put l (.file content)).resolve path = .ok l := by
  obtain ⟨nonempty, plain, folder, above, name, split, named, walked, inside, rfl⟩ :=
    target_eq_ok found
  have below : folder ++ [name] ≠ [] := List.concat_ne_nil _ _
  have changes := changesOnly_put fs below (.file content)
  have apart : folder ≠ folder ++ [name] := by
    intro same
    rw [← same, inside] at plain
    contradiction
  have reached := walk_of_changesOnly (l := fs.origin path) changes plain apart walked
  rw [resolve, if_neg nonempty, split, walk_append,
    show (fs.put (folder ++ [name]) (.file content)).origin path = fs.origin path from rfl, reached]
  refine (walk_name named).mpr ⟨?_, rfl, ?_⟩
  · rw [isFolder_congr (changes.others folder apart), inside]
  · rw [node?_put fs below, if_pos rfl]
    rfl

@[simp] theorem put_put (fs : FileSystem) (l : Location) (first second : Node) :
    (fs.put l first).put l second = fs.put l second := by
  simp [put, List.filter_filter]

@[simp] theorem erase_put (fs : FileSystem) (l : Location) (node : Node) :
    (fs.put l node).erase l = fs.erase l := by
  simp [put, erase, List.filter_filter]

/-- A path leads to a file. -/
structure Holds (fs : FileSystem) (path : Path) (l : Location) (content : ByteArray) : Prop where
  resolved : fs.resolve path = .ok l
  found : fs.node? l = some (.file content)

namespace Holds

theorem plain (holds : fs.Holds path l content) : fs.isFolder l = false :=
  isFolder_file holds.found

theorem find? (holds : fs.Holds path l content) : fs.find? path = some (.file content) := by
  rw [FileSystem.find?, holds.resolved]
  exact holds.found

theorem read (holds : fs.Holds path l content) :
    fs.read path = match fs.medium.unreadable? l with
      | some reason => .error reason
      | none => .ok content := by
  simp only [FileSystem.read, holds.resolved, holds.found, bind, Except.bind]
  cases fs.medium.unreadable? l <;> rfl

theorem append (holds : fs.Holds path l content) (bytes : ByteArray) :
    fs.append path bytes = ((fs.medium.write l content bytes).1,
      fs.put l (.file (fs.medium.write l content bytes).2)) := by
  simp only [FileSystem.append, holds.resolved, holds.found]

theorem remove (holds : fs.Holds path l content) : fs.remove path = fs.erase l := by
  simp [FileSystem.remove, holds.resolved, holds.plain]

/-- What happens elsewhere, to a place that is no directory, leaves the file as it is. -/
theorem of_changesOnly (holds : fs.Holds path l content) (changes : fs.ChangesOnly place fs')
    (plain : fs.isFolder place = false) (apart : l ≠ place) : fs'.Holds path l content :=
  ⟨resolve_of_changesOnly changes plain apart holds.resolved,
    (changes.others l apart).trans holds.found⟩

end Holds

theorem holds_put (found : fs.target path = .ok l) (content : ByteArray) :
    (fs.put l (.file content)).Holds path l content := by
  refine ⟨resolve_put found content, ?_⟩
  rw [node?_put fs (below_target found), if_pos rfl]

section Actions
variable (fs : FileSystem) (path : Path)

@[simp] theorem run_read :
    (Storage.read path : StateM FileSystem _).run fs = (fs.read path, fs) :=
  rfl

@[simp] theorem run_append (bytes : ByteArray) :
    (Storage.append path bytes : StateM FileSystem _).run fs = fs.append path bytes :=
  rfl

@[simp] theorem run_remove :
    (Storage.remove path : StateM FileSystem _).run fs = ((), fs.remove path) :=
  rfl

/-- Adding to a file that was put where its path says. -/
theorem run_append_put {fs : FileSystem} {path : Path} (found : fs.target path = .ok l)
    (content bytes : ByteArray) :
    (Storage.append path bytes : StateM FileSystem _).run (fs.put l (.file content)) =
      ((fs.medium.write l content bytes).1,
        fs.put l (.file (fs.medium.write l content bytes).2)) := by
  rw [run_append, (holds_put found content).append, put_put]
  rfl

theorem run_create :
    (Storage.create path : StateM FileSystem _).run fs =
      match fs.opening path with
      | .ok l => (.ok (), fs.put l (.file .empty))
      | .error reason => (.error reason, fs) := by
  have created : fs.create path = (fs.opening path).map fun l => fs.put l (.file .empty) := by
    rw [create]
    cases fs.opening path <;> rfl
  simp only [Storage.create, StateT.run_bind, StateT.run_get, created, pure_bind]
  cases fs.opening path <;> rfl

end Actions
end FileSystem

end HackToolchain.Files
