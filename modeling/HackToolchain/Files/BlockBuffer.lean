/-! How far output has reached its file while it is still being produced. Pieces are held back until
one does not fit into a block any more; a piece as large as a block is never held. -/
namespace HackToolchain.Files.BlockBuffer

def blockSize : Nat := 8192

/-- How many bytes are held back when a piece of `size` bytes follows `held` bytes. -/
def heldAfter (held size : Nat) : Nat :=
  if blockSize ≤ size then 0
  else if blockSize < held + size then size
  else held + size

/-- The bytes that reach the file when pieces follow the bytes held back, and those held back then. -/
def push (held : ByteArray) (pieces : List String) : ByteArray × ByteArray :=
  let bytes := held ++ (String.join pieces).toUTF8
  let kept := (pieces.map String.utf8ByteSize).foldl heldAfter held.size
  let reached := bytes.size - kept
  (bytes.extract 0 reached, bytes.extract reached bytes.size)

/-- Nothing is lost on the way. -/
theorem push_append (held : ByteArray) (pieces : List String) :
    (push held pieces).1 ++ (push held pieces).2 = held ++ (String.join pieces).toUTF8 := by
  simp only [push]
  rw [← ByteArray.extract_eq_extract_append_extract]
  · exact ByteArray.extract_zero_size
  · omega
  · omega

end HackToolchain.Files.BlockBuffer
