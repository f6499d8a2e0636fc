import HackToolchain.Files.Path

/-! What the programs ask of the place where files are kept. -/
namespace HackToolchain.Files

/-- Why a file cannot be used. -/
inductive Reason where
  | notFound
  | notDirectory
  | isDirectory
  | invalidText
  | other (message : String)
  deriving DecidableEq

def Reason.message : Reason → String
  | .notFound => "No such file or directory (os error 2)"
  | .notDirectory => "Not a directory (os error 20)"
  | .isDirectory => "Is a directory (os error 21)"
  | .invalidText => "stream did not contain valid UTF-8"
  | .other message => message

/-- Files and directories by path. -/
class Storage (m : Type → Type) where
  isFile : Path → m Bool
  isDirectory : Path → m Bool
  /-- The names in a directory, in any order. -/
  entries : Path → m (Except Reason (List Path))
  /-- The name that a directory has in the directory above it. -/
  ownName? : Path → m (Option Path)
  read : Path → m (Except Reason ByteArray)
  /-- Makes a file, or empties the one that is there. -/
  create : Path → m (Except Reason Unit)
  /-- Adds to the end of a file made before. If there is no room for all of it, a part is added. -/
  append : Path → ByteArray → m (Except Reason Unit)
  remove : Path → m Unit

/-- Reads a file as text. -/
def readText [Monad m] [Storage m] (path : Path) : m (Except Reason String) := do
  match ← Storage.read path with
  | .error reason => return .error reason
  | .ok content =>
    match String.fromUTF8? content with
    | some text => return .ok text
    | none => return .error .invalidText

end HackToolchain.Files
