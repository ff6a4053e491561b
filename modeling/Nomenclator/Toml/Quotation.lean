import Nomenclator.Text.Hexadecimal
import Nomenclator.Text.Scanner
import Nomenclator.Toml.Blank

/-!
# Quoted texts

A text is quoted in one of four forms: between double quotes, where a backslash
starts an escape, or between single quotes, where every character stands for
itself; and either on one line between single delimiters or over several lines
between triple ones.
-/

namespace Nomenclator.Toml

open Text (hexDigit?)

/-! ## Escapes -/

/-- The character with a code point given by `width` hexadecimal digits. -/
def codePoint (width : Nat) : Scanner Char := fun text => do
  let digits ← (text.take width).mapM hexDigit?
  let code := digits.foldl (16 * · + ·) 0
  if digits.length = width ∧ code.isValidChar then some (Char.ofNat code, text.drop width)
  else none

/-- The character that an escape stands for, read behind its backslash. -/
def escapedChar : Scanner Char
  | 'b' :: rest => some ('\x08', rest)
  | 't' :: rest => some ('\t', rest)
  | 'n' :: rest => some ('\n', rest)
  | 'f' :: rest => some ('\x0c', rest)
  | 'r' :: rest => some ('\r', rest)
  | '"' :: rest => some ('"', rest)
  | '\\' :: rest => some ('\\', rest)
  | 'u' :: rest => codePoint 4 rest
  | 'U' :: rest => codePoint 8 rest
  | _ => none

/-! ## On one line -/

/-- A character that stands for itself. -/
def plainChar : Scanner Char
  | [] => none
  | c :: rest => if isPlain c then some (c, rest) else none

/-- A character between double quotes. -/
def basicChar : Scanner Char
  | '\\' :: rest => escapedChar rest
  | text => plainChar text

/-- A text of such characters, read behind its opening quote. -/
def closedBy (quote : Char) (char : Scanner Char) : Scanner (List Char) := fun text => do
  let (content, rest) ← Scanner.repeatWhile (fun ahead => !Scanner.startsWith quote ahead) char text
  let rest ← Scanner.expect quote rest
  some (content, rest)

/-! ## Over several lines -/

/-- The text without the blanks and line ends at its front. -/
def skipBreaks : List Char → List Char
  | [] => []
  | '\n' :: rest => skipBreaks rest
  | '\r' :: '\n' :: rest => skipBreaks rest
  | c :: rest => if isBlank c then skipBreaks rest else c :: rest

/-- A backslash at the end of a line takes the line end and all blanks and line
    ends behind it out of the text. Read behind the backslash. -/
def continuation? (text : List Char) : Option (List Char) :=
  (newline? (skipBlanks text)).map skipBreaks

/-- What a stretch of a text over several lines stands for. A line end stands
    for a line feed, whichever way it is written. -/
def lineOrChar (char : Scanner Char) : Scanner (List Char) := fun text =>
  match newline? text with
  | some rest => some (['\n'], rest)
  | none => (char text).map fun (c, rest) => ([c], rest)

/-- A stretch between triple double quotes. -/
def basicStretch : Scanner (List Char)
  | '\\' :: rest =>
    match continuation? rest with
    | some behind => some ([], behind)
    | none => (escapedChar rest).map fun (c, behind) => ([c], behind)
  | text => lineOrChar plainChar text

/-- The text goes on with three of the quote. -/
def startsWithThree (quote : Char) : List Char → Bool
  | a :: b :: c :: _ => a = quote && b = quote && c = quote
  | _ => false

/-- The closing delimiter with the quotes before it, of which up to two belong
    to the text. -/
def closing (quote : Char) : Scanner (List Char) := fun text =>
  let count := min (text.takeWhile (· = quote)).length 5
  if 3 ≤ count then some (List.replicate (count - 3) quote, text.drop count) else none

/-- A text over several lines, read behind its opening delimiter. A line end
    right there is not part of the text. -/
def closedByThree (quote : Char) (stretch : Scanner (List Char)) : Scanner (List Char) :=
  fun text => do
    let body := (newline? text).getD text
    let (stretches, rest) ←
      Scanner.repeatWhile (fun ahead => !startsWithThree quote ahead) stretch body
    let (quotes, rest) ← closing quote rest
    some (stretches.flatten ++ quotes, rest)

/-! ## In any form -/

/-- A quoted text on one line. -/
def quotedLine : Scanner String
  | '"' :: rest => (closedBy '"' basicChar rest).map fun (s, behind) => (String.ofList s, behind)
  | '\'' :: rest => (closedBy '\'' plainChar rest).map fun (s, behind) => (String.ofList s, behind)
  | _ => none

/-- A quoted text in any of the four forms. -/
def quotedText : Scanner String
  | '"' :: '"' :: '"' :: rest =>
    (closedByThree '"' basicStretch rest).map fun (s, behind) => (String.ofList s, behind)
  | '\'' :: '\'' :: '\'' :: rest =>
    (closedByThree '\'' (lineOrChar plainChar) rest).map fun (s, behind) =>
      (String.ofList s, behind)
  | text => quotedLine text

example : quotedText "\"a\\u00e9\" x".toList = some ("aé", " x".toList) := by decide +kernel
example : quotedText "'a\\' x".toList = some ("a\\", " x".toList) := by decide +kernel
example : quotedText "\"\"\"\na\\\n  b\"\"\"\"x".toList = some ("ab\"", ['x']) := by
  decide +kernel
example : quotedText "\"\\ud800\"".toList = none := by decide +kernel

end Nomenclator.Toml
