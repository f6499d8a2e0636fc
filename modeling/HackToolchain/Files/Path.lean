/-! Paths and names as bytes: components between slashes, and names that end in an extension. Not all of
them are texts. -/
namespace HackToolchain.Files

abbrev Path := List UInt8

namespace Path

def ofText (text : String) : Path :=
  text.toUTF8.data.toList

instance : Coe String Path := ⟨ofText⟩

/-- The text that a path is in UTF-8, if it is one. -/
def text? (path : Path) : Option String :=
  String.fromUTF8? ⟨path.toArray⟩

/-- Bounds of the bytes that can follow the first byte of a character in UTF-8. -/
def followers (lead : UInt8) : List (UInt8 × UInt8) :=
  if lead < 0xc2 then []
  else if lead < 0xe0 then [(0x80, 0xbf)]
  else if lead = 0xe0 then [(0xa0, 0xbf), (0x80, 0xbf)]
  else if lead = 0xed then [(0x80, 0x9f), (0x80, 0xbf)]
  else if lead < 0xf0 then [(0x80, 0xbf), (0x80, 0xbf)]
  else if lead = 0xf0 then [(0x90, 0xbf), (0x80, 0xbf), (0x80, 0xbf)]
  else if lead < 0xf4 then [(0x80, 0xbf), (0x80, 0xbf), (0x80, 0xbf)]
  else if lead = 0xf4 then [(0x80, 0x8f), (0x80, 0xbf), (0x80, 0xbf)]
  else []

/-- How many bytes are within bounds, up to the first that is not. -/
def within : List (UInt8 × UInt8) → List UInt8 → Nat
  | (low, high) :: bounds, byte :: bytes =>
    if low ≤ byte ∧ byte ≤ high then within bounds bytes + 1 else 0
  | _, _ => 0

/-- A text with a mark in the place of each start of a character that is not finished, and of each byte
that starts none. -/
def marked : Path → String
  | [] => ""
  | lead :: rest =>
    let length := within (followers lead) rest
    (text? (lead :: rest.take length)).getD "\ufffd" ++ marked (rest.drop length)
termination_by path => path.length

/-- A path as messages show it. -/
def display (path : Path) : String :=
  (text? path).getD (marked path)

def slash : UInt8 := 0x2f

def dot : UInt8 := 0x2e

/-- The name under which every directory holds itself. -/
def here : Path := [dot]

/-- The name under which every directory holds the one above it. -/
def up : Path := [dot, dot]

/-- What stands between the slashes; two slashes in a row have an empty component between them. -/
def components (path : Path) : List Path :=
  path.splitOn slash

/-- A file in a folder. -/
def join (folder name : Path) : Path :=
  if folder = [] ∨ folder.getLast? = some slash then folder ++ name
  else folder ++ slash :: name

/-- The last component that is a name, unless the path ends by going up. -/
def fileName? (path : Path) : Option Path :=
  (((components path).filter fun c => c ≠ [] ∧ c ≠ here).getLast?).filter (· ≠ up)

/-- A name without its extension, and the extension: what follows the last dot, unless that dot is
the first character of the name. -/
def splitName (name : Path) : Path × Option Path :=
  let fromEnd := name.reverse
  let stem := ((fromEnd.dropWhile (· ≠ dot)).drop 1).reverse
  if stem = [] then (name, none)
  else (stem, some (fromEnd.takeWhile (· ≠ dot)).reverse)

def stem? (path : Path) : Option Path :=
  (fileName? path).map fun name => (splitName name).1

def extension? (path : Path) : Option Path :=
  (fileName? path).bind fun name => (splitName name).2

/-- The path up to and including its last slash, and what follows. -/
def splitLast (path : Path) : Path × Path :=
  let fromEnd := path.reverse
  ((fromEnd.dropWhile (· ≠ slash)).reverse, (fromEnd.takeWhile (· ≠ slash)).reverse)

/-- Puts an extension in the place of the one the path has, if any. Of a name whose stem is a single
dot only two dots are kept, which name the folder above and take no extension. -/
def withExtension (path extension : Path) : Path :=
  if fileName? path = none then path
  else
    let (folder, name) := splitLast path
    let stem := (splitName name).1
    folder ++ if stem = here then up else stem ++ dot :: extension

end Path

end HackToolchain.Files
