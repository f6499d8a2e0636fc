/-! Decimal numerals without sign: any number of leading zeros is read, none is written. -/
namespace HackToolchain.Text

/-- Reads a numeral whose value is at most `limit`. -/
def decimal? (limit : Nat) (digits : List Char) : Option Nat :=
  if digits ≠ [] ∧ digits.all Char.isDigit ∧ Nat.ofDigitChars 10 digits 0 ≤ limit then
    some (Nat.ofDigitChars 10 digits 0)
  else none

theorem decimal?_le {limit n : Nat} {digits : List Char} (read : decimal? limit digits = some n) :
    n ≤ limit := by
  unfold decimal? at read
  split at read
  · rename_i range
    exact Option.some.inj read ▸ range.2.2
  · contradiction

theorem isDigit_of_mem_repr {n : Nat} {c : Char} (member : c ∈ n.repr.toList) : c.isDigit := by
  rw [Nat.toList_repr] at member
  exact Nat.isDigit_of_mem_toDigits (by omega) (by omega) member

theorem not_mem_repr {c : Char} (other : c.isDigit = false) (n : Nat) : c ∉ n.repr.toList :=
  fun member => absurd (isDigit_of_mem_repr member) (by simp [other])

theorem decimal?_repr {n limit : Nat} (bound : n ≤ limit) :
    decimal? limit n.repr.toList = some n := by
  have nonempty : n.repr.toList ≠ [] := by
    rw [Nat.toList_repr]
    exact Nat.toDigits_ne_nil
  have digits : n.repr.toList.all Char.isDigit :=
    List.all_eq_true.mpr fun _ member => isDigit_of_mem_repr member
  have value : Nat.ofDigitChars 10 n.repr.toList 0 = n := by
    rw [Nat.toList_repr, Nat.ofDigitChars_toDigits (by omega) (by omega)]
  have within : Nat.ofDigitChars 10 n.repr.toList 0 ≤ limit := by
    rw [value]
    exact bound
  rw [decimal?, if_pos ⟨nonempty, digits, within⟩, value]

end HackToolchain.Text
