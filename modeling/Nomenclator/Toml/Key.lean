import Nomenclator.Toml.Quotation
import Nomenclator.Toml.Value

/-!
# Keys

A key is a word or a quoted text; keys with dots between them lead through
tables. Blanks may stand around each of them.
-/

namespace Nomenclator.Toml

/-- A character of a key that is a word. -/
def isWordChar (c : Char) : Bool := c.isAlphanum || c = '_' || c = '-'

/-- One key. -/
def simpleKey : Scanner String := fun text =>
  match quotedLine text with
  | some found => some found
  | none => (Scanner.run1 isWordChar text).map fun (word, rest) => (String.ofList word, rest)

/-- One key and the blanks around it. -/
def spacedKey : Scanner String := fun text => do
  let (key, rest) ← simpleKey (skipBlanks text)
  some (key, skipBlanks rest)

/-- The number of keys that may not be reached in a row of them. -/
def keyLimit : Nat := 80

/-- Keys with dots between them. -/
def dottedKey : Scanner DottedKey := fun text => do
  let (first, rest) ← spacedKey text
  let (others, rest) ←
    Scanner.repeatWhile (Scanner.startsWith '.') (fun ahead => spacedKey (ahead.drop 1)) rest
  let keys := first :: others
  if keys.length < keyLimit then
    some (⟨keys.dropLast, others.getLastD first⟩, rest)
  else none

end Nomenclator.Toml
