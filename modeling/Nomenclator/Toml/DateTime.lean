import Nomenclator.Text.Scanner

/-!
# Dates and times

A date, a time, or a date with a time behind it and possibly the distance from
universal time. Days have to exist in their month; a minute may have a leap
second.
-/

namespace Nomenclator.Toml

/-- A number of exactly `width` decimal digits. -/
def fixedNumber (width : Nat) : Scanner Nat := fun text =>
  let digits := text.take width
  if digits.length = width ∧ digits.all Char.isDigit then
    some (digits.foldl (fun n c => 10 * n + (c.toNat - '0'.toNat)) 0, text.drop width)
  else none

/-- Two digits of a number that is at most `most`. -/
def twoDigits (most : Nat) (text : List Char) : Option (List Char) := do
  let (number, rest) ← fixedNumber 2 text
  if number ≤ most then some rest else none

/-- The year has a 29th of February. -/
def isLeapYear (year : Nat) : Bool := year % 4 = 0 && (year % 100 ≠ 0 || year % 400 = 0)

/-- The number of days of a month. -/
def daysInMonth (year month : Nat) : Nat :=
  if month = 2 then if isLeapYear year then 29 else 28
  else if month = 4 ∨ month = 6 ∨ month = 9 ∨ month = 11 then 30
  else 31

/-- Takes a date. -/
def skipDate? (text : List Char) : Option (List Char) := do
  let (year, rest) ← fixedNumber 4 text
  let (month, rest) ← fixedNumber 2 (← Scanner.expect '-' rest)
  let (day, rest) ← fixedNumber 2 (← Scanner.expect '-' rest)
  if 1 ≤ month ∧ month ≤ 12 ∧ 1 ≤ day ∧ day ≤ daysInMonth year month then some rest else none

/-- Takes the fraction of a second, if there is one. -/
def skipFraction? : List Char → Option (List Char)
  | '.' :: rest => (Scanner.run1 Char.isDigit rest).map (·.2)
  | text => some text

/-- Takes a time. -/
def skipTime? (text : List Char) : Option (List Char) := do
  let rest ← twoDigits 23 text
  let rest ← twoDigits 59 (← Scanner.expect ':' rest)
  let rest ← twoDigits 60 (← Scanner.expect ':' rest)
  skipFraction? rest

/-- Takes the distance from universal time, if it is given. -/
def skipOffset? : List Char → Option (List Char)
  | [] => some []
  | sign :: rest =>
    if sign = 'Z' ∨ sign = 'z' then some rest
    else if sign = '+' ∨ sign = '-' then do
      let rest ← twoDigits 23 rest
      twoDigits 59 (← Scanner.expect ':' rest)
    else none

/-- What may stand behind a date: nothing, or a time with or without a
    distance. -/
def isBehindDate : List Char → Bool
  | [] => true
  | mark :: rest =>
    (mark = 'T' || mark = 't' || mark = ' ') && ((skipTime? rest).bind skipOffset?) == some []

/-- A whole text is a date, a time or both. -/
def isDateTime (text : List Char) : Bool :=
  match skipDate? text with
  | some rest => isBehindDate rest
  | none => skipTime? text == some []

example : isDateTime "2024-02-29 23:59:60.5-08:00".toList = true := by decide
example : isDateTime "2023-02-29".toList = false := by decide
example : isDateTime "07:32:00".toList = true := by decide

end Nomenclator.Toml
