import HackToolchain.Files.Path
import HackToolchain.Files.Storage

/-! A tree of files and directories, without links. Some of them cannot be read or written to. -/
namespace HackToolchain.Files

/-- The names on the way from the root. -/
abbrev Location := List Path

inductive Node where
  | file (content : ByteArray)
  | directory

namespace Node

def isDirectory : Node → Bool
  | directory => true
  | file _ => false

def content? : Node → Option ByteArray
  | directory => none
  | file content => some content

end Node

/-- What cannot be done with the files and directories of a tree, wherever they are. -/
structure Medium where
  /-- Why a file cannot be read, or a directory not be listed. -/
  unreadable? : Location → Option Reason
  /-- Why a file can be neither made nor emptied. -/
  closed? : Location → Option Reason
  /-- How many bytes a file can have, and why it takes no more. -/
  limit? : Location → Option (Nat × Reason)

namespace Medium

/-- Nothing fails. -/
def sound : Medium := ⟨fun _ => none, fun _ => none, fun _ => none⟩

/-- A file with more bytes at its end, or as many of them as it can have. -/
def write (m : Medium) (l : Location) (content bytes : ByteArray) : Except Reason Unit × ByteArray :=
  match m.limit? l with
  | none => (.ok (), content ++ bytes)
  | some (limit, reason) =>
    if content.size + bytes.size ≤ limit then (.ok (), content ++ bytes)
    else (.error reason, content ++ bytes.extract 0 (limit - content.size))

end Medium

/-- Everything below the root, and the directory that relative paths start from. -/
structure FileSystem where
  nodes : List (Location × Node)
  current : Location
  medium : Medium

namespace FileSystem

def node? (fs : FileSystem) (l : Location) : Option Node :=
  if l = [] then some .directory else fs.nodes.lookup l

def isFolder (fs : FileSystem) (l : Location) : Bool :=
  (fs.node? l).any Node.isDirectory

def put (fs : FileSystem) (l : Location) (node : Node) : FileSystem :=
  { fs with nodes := (l, node) :: fs.nodes.filter (·.1 ≠ l) }

def erase (fs : FileSystem) (l : Location) : FileSystem :=
  { fs with nodes := fs.nodes.filter (·.1 ≠ l) }

theorem lookup_filter (nodes : List (Location × Node)) (keep : Location → Bool) (l : Location) :
    (nodes.filter fun entry => keep entry.1).lookup l = if keep l then nodes.lookup l else none := by
  induction nodes with
  | nil => simp
  | cons entry rest ih =>
    obtain ⟨location, node⟩ := entry
    simp only [List.filter_cons]
    by_cases same : l = location
    · subst same
      cases kept : keep l <;> simp [kept, ih, -List.lookup_eq_none_iff]
    · have differs : (l == location) = false := beq_eq_false_iff_ne.mpr same
      cases kept : keep location <;> simp [List.lookup_cons, differs, ih]

theorem node?_put (fs : FileSystem) {l : Location} (below : l ≠ []) (node : Node) (l' : Location) :
    (fs.put l node).node? l' = if l' = l then some node else fs.node? l' := by
  by_cases same : l' = l
  · subst same
    simp [node?, put, below]
  · have differs : (l' == l) = false := beq_eq_false_iff_ne.mpr same
    have others := lookup_filter fs.nodes (fun l' => decide (l' ≠ l)) l'
    simp only [node?, put, List.lookup_cons, differs, others, same, decide_true, if_true, if_false,
      ne_eq, not_false_eq_true]

theorem node?_erase (fs : FileSystem) {l : Location} (below : l ≠ []) (l' : Location) :
    (fs.erase l).node? l' = if l' = l then none else fs.node? l' := by
  have others := lookup_filter fs.nodes (fun l' => decide (l' ≠ l)) l'
  by_cases same : l' = l
  · subst same
    simp only [node?, erase, others, below, if_false, if_true, ne_eq, not_true_eq_false,
      decide_false, Bool.false_eq_true]
  · simp only [node?, erase, others, same, decide_true, if_true, if_false, ne_eq,
      not_false_eq_true]

/-- Where a path starts. -/
def origin (fs : FileSystem) (path : Path) : Location :=
  if path.head? = some Path.slash then [] else fs.current

/-- Follows components. Every one of them, even an empty one or a dot, has to be met in a directory;
going up from the root stays there. -/
def walk (fs : FileSystem) (l : Location) : List Path → Except Reason Location
  | [] => .ok l
  | component :: rest =>
    if !fs.isFolder l then .error .notDirectory
    else if component = [] ∨ component = Path.here then fs.walk l rest
    else if component = Path.up then fs.walk l.dropLast rest
    else if (fs.node? (l ++ [component])).isNone then .error .notFound
    else fs.walk (l ++ [component]) rest

/-- What a path names. -/
def resolve (fs : FileSystem) (path : Path) : Except Reason Location :=
  if path = [] then .error .notFound
  else fs.walk (fs.origin path) (Path.components path)

def find? (fs : FileSystem) (path : Path) : Option Node :=
  match fs.resolve path with
  | .ok l => fs.node? l
  | .error _ => none

def isFile (fs : FileSystem) (path : Path) : Bool :=
  (fs.find? path).any (!·.isDirectory)

def isDirectory (fs : FileSystem) (path : Path) : Bool :=
  (fs.find? path).any Node.isDirectory

/-- The names directly below a location. -/
def names (fs : FileSystem) (l : Location) : List Path :=
  fs.nodes.filterMap fun (location, _) =>
    if location.dropLast = l then location.getLast? else none

def entries (fs : FileSystem) (path : Path) : Except Reason (List Path) := do
  let l ← fs.resolve path
  if !fs.isFolder l then throw .notDirectory
  match fs.medium.unreadable? l with
  | some reason => throw reason
  | none => return fs.names l

def ownName? (fs : FileSystem) (path : Path) : Option Path :=
  match fs.resolve path with
  | .ok l => l.getLast?
  | .error _ => none

def read (fs : FileSystem) (path : Path) : Except Reason ByteArray := do
  let l ← fs.resolve path
  match fs.medium.unreadable? l, fs.node? l with
  | some reason, _ => throw reason
  | none, some (.file content) => return content
  | none, some .directory => throw .isDirectory
  | none, none => throw .notFound

/-- Where a path leads to a file that may not be there yet. The directory above it has to be. A path
that ends in a slash or a dot can only name a directory. -/
def target (fs : FileSystem) (path : Path) : Except Reason Location := do
  if path = [] then throw .notFound
  let components := Path.components path
  let fromEnd := components.reverse.dropWhile (· = [])
  match fromEnd with
  | [] => throw .isDirectory
  | last :: above =>
    let folder ← fs.walk (fs.origin path) above.reverse
    if !fs.isFolder folder then throw .notDirectory
    if last = Path.here ∨ last = Path.up ∨ components.getLast? = some [] then throw .isDirectory
    if fs.isFolder (folder ++ [last]) then throw .isDirectory
    return folder ++ [last]

/-- Where a path leads to a file that can be made, or emptied. -/
def opening (fs : FileSystem) (path : Path) : Except Reason Location := do
  let l ← fs.target path
  match fs.medium.closed? l with
  | some reason => throw reason
  | none => return l

def create (fs : FileSystem) (path : Path) : Except Reason FileSystem := do
  return fs.put (← fs.opening path) (.file .empty)

def append (fs : FileSystem) (path : Path) (bytes : ByteArray) : Except Reason Unit × FileSystem :=
  match fs.resolve path with
  | .error reason => (.error reason, fs)
  | .ok l =>
    match fs.node? l with
    | some (.file content) =>
      let (answer, content) := fs.medium.write l content bytes
      (answer, fs.put l (.file content))
    | some .directory => (.error .isDirectory, fs)
    | none => (.error .notFound, fs)

/-- Only files are removed. -/
def remove (fs : FileSystem) (path : Path) : FileSystem :=
  match fs.resolve path with
  | .error _ => fs
  | .ok l =>
    if fs.isFolder l then fs else fs.erase l

end FileSystem

instance : Storage (StateM FileSystem) where
  isFile path := do return (← get).isFile path
  isDirectory path := do return (← get).isDirectory path
  entries path := do return (← get).entries path
  ownName? path := do return (← get).ownName? path
  read path := do return (← get).read path
  create path := do
    match (← get).create path with
    | .ok fs => set fs; return .ok ()
    | .error reason => return .error reason
  append path bytes := modifyGet (·.append path bytes)
  remove path := modify (·.remove path)

end HackToolchain.Files
