import Nomenclator.Text.Hexadecimal

/-!
# Numerals

Integers in four bases and floating-point numbers. Single underscores may stand
between the digits of either. An integer has to fit into 64 bits, and a positive
floating-point number must not be too large for a double.
-/

namespace Nomenclator.Toml

open Text (hexDigit?)

/-! ## Digits -/

/-- The value of a digit in a base of at most sixteen. -/
def digit? (base : Nat) (c : Char) : Option Nat := (hexDigit? c).filter (· < base)

/-- The values of digits with single underscores between them. -/
def digits? (base : Nat) : List Char → Option (List Nat)
  | [] => none
  | [c] => do some [← digit? base c]
  | c :: '_' :: rest => do some ((← digit? base c) :: (← digits? base rest))
  | c :: rest => do some ((← digit? base c) :: (← digits? base rest))

/-- The number that digits stand for. -/
def numberOf (base : Nat) (digits : List Nat) : Nat := digits.foldl (base * · + ·) 0

/-- The digits of a decimal integer, which starts with a zero only if it is
    zero. -/
def decimalDigits? (text : List Char) : Option (List Nat) :=
  match digits? 10 text with
  | some (0 :: _ :: _) => none
  | digits => digits

/-- The sign in front of a numeral: whether it is a minus, and the rest. -/
def cutSign : List Char → Bool × List Char
  | '+' :: rest => (false, rest)
  | '-' :: rest => (true, rest)
  | text => (false, text)

/-! ## Integers -/

/-- The number, if it fits into 64 bits with a sign. -/
def fitting? (number : Int) : Option Int :=
  if -9223372036854775808 ≤ number ∧ number ≤ 9223372036854775807 then some number else none

/-- The integer that a whole text is the numeral of. Only decimal numerals have
    a sign. -/
def integer? (text : List Char) : Option Int :=
  match text with
  | '0' :: 'x' :: rest => do fitting? (numberOf 16 (← digits? 16 rest))
  | '0' :: 'o' :: rest => do fitting? (numberOf 8 (← digits? 8 rest))
  | '0' :: 'b' :: rest => do fitting? (numberOf 2 (← digits? 2 rest))
  | _ => do
    let (negative, rest) := cutSign text
    let number : Int := numberOf 10 (← decimalDigits? rest)
    fitting? (if negative then -number else number)

/-! ## Floating-point numbers -/

/-- The least number that is nearer to `2 ^ 1024` than to any double: half a
    step above the largest one. -/
def overflowLimit : Nat := Nat.pow 2 1024 - Nat.pow 2 970

/-- The number `digits * 10 ^ exponent` is too large for a double. Its size is
    told from the place of its first digit where that suffices. -/
def overflows (digits : List Nat) (exponent : Int) : Bool :=
  let significant := digits.dropWhile (· = 0)
  let places : Int := significant.length + exponent
  if significant = [] ∨ places ≤ 308 then false
  else if 310 ≤ places then true
  else
    numberOf 10 significant * Nat.pow 10 exponent.toNat ≥
      overflowLimit * Nat.pow 10 (-exponent).toNat

/-- A letter that starts an exponent. -/
def isExponentMark (c : Char) : Bool := c = 'e' || c = 'E'

/-- The exponent at the end of a numeral, zero if there is none. -/
def exponent? : List Char → Option Int
  | [] => some 0
  | mark :: rest => do
    let (negative, rest) := cutSign rest
    let number : Int := numberOf 10 (← digits? 10 rest)
    if isExponentMark mark then some (if negative then -number else number) else none

/-- A whole text is the numeral of a floating-point number: an infinity, no
    number, or a decimal integer with a fraction or an exponent. -/
def isFloat (text : List Char) : Bool :=
  let (negative, unsigned) := cutSign text
  let whole := unsigned.takeWhile fun c => !(c = '.' || isExponentMark c)
  let behind := unsigned.drop whole.length
  let accepted (fraction : List Nat) (tail : List Char) : Bool :=
    match decimalDigits? whole, exponent? tail with
    | some digits, some exponent =>
      negative || !overflows (digits ++ fraction) (exponent - fraction.length)
    | _, _ => false
  if unsigned = ['i', 'n', 'f'] ∨ unsigned = ['n', 'a', 'n'] then true
  else
    match behind with
    | [] => false
    | '.' :: rest =>
      let fraction := rest.takeWhile fun c => !isExponentMark c
      match digits? 10 fraction with
      | some digits => accepted digits (rest.drop fraction.length)
      | none => false
    | tail => accepted [] tail

example : integer? "-1_000".toList = some (-1000) := by decide
example : integer? "0xdead_BEEF".toList = some 0xdeadbeef := by decide
example : integer? "007".toList = none := by decide
example : integer? "9223372036854775808".toList = none := by decide
example : isFloat "6.02_2e+23".toList = true := by decide
example : isFloat "1.".toList = false := by decide

end Nomenclator.Toml
