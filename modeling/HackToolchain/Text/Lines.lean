/-! Text as numbered lines and a line as words. Both source languages are read this way: no word
runs over the end of a line, and lines are counted from one. -/
namespace HackToolchain.Text

/-- What separates words: space, tab, line feed, form feed and carriage return. -/
def isBlank (c : Char) : Bool :=
  c = ' ' || c = '\t' || c = '\n' || c = '\x0c' || c = '\r'

/-- A text with `n` line feeds has `n + 1` lines. -/
def lines (text : List Char) : List (List Char) :=
  text.splitOn '\n'

def numberedLines (text : List Char) : List (List Char × Nat) :=
  (lines text).zipIdx 1

/-- The longest stretches without a blank. -/
def words (line : List Char) : List (List Char) :=
  (line.splitOnP isBlank).filter (!·.isEmpty)

end HackToolchain.Text
