import Mathlib.Data.List.Basic

/-! # Decimal text

Numbers printed in base ten, and read back. Readers also take leading zeros, and a
plus sign where the syntax has one; what is printed has neither.
-/

namespace Library

namespace Decimal

/-- The number that a text of digits stands for. -/
def value (text : List Char) : Option Nat :=
  if text ≠ [] ∧ text.all Char.isDigit = true then some (Nat.ofDigitChars 10 text 0) else none

def withoutPlus : List Char → List Char
  | '+' :: digits => digits
  | text => text

/-- The numbers below a bound, with an optional plus sign. -/
def unsigned (bound : Nat) (text : List Char) : Option Nat :=
  (value (withoutPlus text)).filter fun n => n < bound

@[simp] theorem value_toDigits (n : Nat) : value (Nat.toDigits 10 n) = some n := by
  have digits : (Nat.toDigits 10 n).all Char.isDigit = true :=
    List.all_eq_true.mpr fun c member => Nat.isDigit_of_mem_toDigits (by decide) (by decide) member
  rw [value, if_pos ⟨Nat.toDigits_ne_nil, digits⟩, Nat.ofDigitChars_ten_toDigits]

theorem withoutPlus_toDigits (n : Nat) : withoutPlus (Nat.toDigits 10 n) = Nat.toDigits 10 n := by
  unfold withoutPlus
  split
  · rename_i digits printed
    have sign : '+' ∈ Nat.toDigits 10 n := by
      rw [printed]
      exact List.mem_cons_self
    have digit := Nat.isDigit_of_mem_toDigits (by decide) (by decide) sign
    cases digit
  · rfl

theorem unsigned_toDigits {n bound : Nat} (below : n < bound) :
    unsigned bound (Nat.toDigits 10 n) = some n := by
  rw [unsigned, withoutPlus_toDigits, value_toDigits, Option.filter_some,
    if_pos (decide_eq_true below)]

end Decimal

end Library
