import Nomenclator.Toml.DateTime
import Nomenclator.Toml.Key
import Nomenclator.Toml.Numeral

/-!
# Reading values

Numbers, truth values, dates and times are written without quotes and end at
the first character that none of them can hold. Arrays may run over several
lines, tables in braces may not. Both may be nested, but only to a certain
depth.
-/

namespace Nomenclator.Toml

/-! ## Values without quotes -/

/-- A character of a number, a truth value, a date or a time. -/
def isScalarChar (c : Char) : Bool :=
  c.isAlphanum || c = '_' || c = '+' || c = '-' || c = '.' || c = ':'

/-- A blank between a date and a time, which the text goes on with. -/
def startsTime : List Char → Bool
  | ' ' :: a :: b :: ':' :: _ => a.isDigit && b.isDigit
  | _ => false

/-- The text of a value without quotes. A time behind a date belongs to it. -/
def scalarText : Scanner (List Char) := fun text => do
  let (word, rest) ← Scanner.run1 isScalarChar text
  if skipDate? word = some [] ∧ startsTime rest then
    some (word ++ ' ' :: (rest.drop 1).takeWhile isScalarChar,
      (rest.drop 1).dropWhile isScalarChar)
  else some (word, rest)

/-- The value that a whole text without quotes stands for. -/
def scalarOf? (text : List Char) : Option Value :=
  if text = ['t', 'r', 'u', 'e'] then some (.boolean true)
  else if text = ['f', 'a', 'l', 's', 'e'] then some (.boolean false)
  else
    match integer? text with
    | some number => some (.integer number)
    | none =>
      if isFloat text then some (.float (String.ofList text))
      else if isDateTime text then some (.dateTime (String.ofList text))
      else none

/-- A value without quotes. -/
def scalar : Scanner Value := fun text => do
  let (word, rest) ← scalarText text
  some (← scalarOf? word, rest)

/-- A value with nothing inside it. -/
def simpleValue : Scanner Value := fun text =>
  match quotedText text with
  | some (content, rest) => some (.text content, rest)
  | none => scalar text

/-! ## Arrays and tables in braces -/

/-- An element of an array and what parts it from the next one or from the end
    of the array. -/
def arrayElement (value : Scanner Value) : Scanner Value := fun text => do
  let (element, rest) ← value text
  let rest ← skipLines? false rest
  match rest with
  | ',' :: behind => some (element, ← skipLines? false behind)
  | ']' :: _ => some (element, rest)
  | _ => none

/-- An array, read behind its opening bracket. -/
def arrayOf (value : Scanner Value) : Scanner Value := fun text => do
  let rest ← skipLines? false text
  let (elements, rest) ←
    Scanner.repeatWhile (fun ahead => !Scanner.startsWith ']' ahead) (arrayElement value) rest
  some (.array elements, ← Scanner.expect ']' rest)

/-- A key with its value and the blanks behind it. -/
def pairOf (value : Scanner Value) : Scanner Pair := fun text => do
  let (key, rest) ← dottedKey text
  let (found, rest) ← value (skipBlanks (← Scanner.expect '=' rest))
  some (⟨key, found⟩, skipBlanks rest)

/-- A pair in braces and what parts it from the next one or from the end of the
    table. A comma promises another pair. -/
def inlinePair (value : Scanner Value) : Scanner Pair := fun text => do
  let (pair, rest) ← pairOf value text
  match rest with
  | ',' :: behind =>
    if Scanner.startsWith '}' (skipBlanks behind) then none else some (pair, behind)
  | '}' :: _ => some (pair, rest)
  | _ => none

/-- A table in braces, read behind the opening one. -/
def inlineTableOf (value : Scanner Value) : Scanner Value := fun text => do
  let (pairs, rest) ←
    Scanner.repeatWhile (fun ahead => !Scanner.startsWith '}' ahead) (inlinePair value)
      (skipBlanks text)
  let entries ← Value.insertPairs [] pairs
  some (.table .inline entries, ← Scanner.expect '}' rest)

/-! ## Any value -/

/-- A value in which arrays and tables are nested at most `depth` deep. -/
def valueWithin : (depth : Nat) → Scanner Value
  | 0, text => simpleValue text
  | depth + 1, text =>
    match text with
    | '[' :: rest => arrayOf (valueWithin depth) rest
    | '{' :: rest => inlineTableOf (valueWithin depth) rest
    | _ => simpleValue text

/-- How deep arrays and tables may be nested. -/
def depthLimit : Nat := 79

/-- A value. -/
def value : Scanner Value := valueWithin depthLimit

end Nomenclator.Toml
