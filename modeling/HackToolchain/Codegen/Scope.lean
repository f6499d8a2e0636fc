import Std.Data.TreeSet.Basic

/-! What code generation remembers between instructions: where labels and statics belong, which
label numbers are used up and which labels are taken. -/
namespace HackToolchain.Codegen

/-- Labels belong to the current function or, before the first function, to the file. -/
structure Scope where
  fileName : String
  function? : Option String
  nextLabel : Nat
  defined : Std.TreeSet String

namespace Scope

def empty : Scope := ⟨"", none, 0, ∅⟩

def name (s : Scope) : String :=
  s.function?.getD s.fileName

/-- The symbol of a label of this scope. -/
def symbol (s : Scope) (label : String) : String :=
  s.name ++ "$" ++ label

end Scope

end HackToolchain.Codegen
