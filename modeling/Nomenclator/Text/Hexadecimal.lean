/-!
# Hexadecimal numerals

Numbers written in base sixteen, padded with zeros to a least width.
-/

namespace Nomenclator.Text

/-- The numeral of `n` in base sixteen with at least `width` digits, letters in
    lower case. -/
def hexadecimal (width n : Nat) : List Char :=
  let digits := Nat.toDigits 16 n
  List.replicate (width - digits.length) '0' ++ digits

/-- The same numeral with letters in upper case. -/
def hexadecimalUpper (width n : Nat) : List Char := (hexadecimal width n).map Char.toUpper

/-- The value of a hexadecimal digit of either case. -/
def hexDigit? (c : Char) : Option Nat :=
  if '0' ≤ c ∧ c ≤ '9' then some (c.toNat - '0'.toNat)
  else if 'a' ≤ c ∧ c ≤ 'f' then some (c.toNat - 'a'.toNat + 10)
  else if 'A' ≤ c ∧ c ≤ 'F' then some (c.toNat - 'A'.toNat + 10)
  else none

example : hexadecimal 8 0xcafe = "0000cafe".toList := by decide
example : hexadecimalUpper 4 0x1f = "001F".toList := by decide

end Nomenclator.Text
