import Nomenclator.Toml.Reader

/-!
# Documents

A TOML document is read line by line: a line holds a pair, a header or nothing,
and only values run over its end. The pairs before the first header belong to
the document itself.
-/

namespace Nomenclator.Toml

/-- What a line says. -/
inductive Statement where
  | blank
  | pair (pair : Pair)
  | header (header : Header)
  deriving Repr

/-- A line with its end. -/
def statement : Scanner Statement := fun text =>
  match skipBlanks text with
  | '[' :: '[' :: rest => do
    let (key, rest) ← dottedKey rest
    let rest ← Scanner.expect ']' (← Scanner.expect ']' rest)
    some (.header (.element key), ← lineEnd? rest)
  | '[' :: rest => do
    let (key, rest) ← dottedKey rest
    some (.header (.table key), ← lineEnd? (← Scanner.expect ']' rest))
  | start =>
    match lineEnd? start with
    | some rest => some (.blank, rest)
    | none => do
      let (pair, rest) ← pairOf value start
      some (.pair pair, ← lineEnd? rest)

/-- All lines of a document. -/
def statements? (text : List Char) : Option (List Statement) :=
  (Scanner.repeatWhile (fun ahead => !ahead.isEmpty) statement text).map (·.1)

/-- The pairs before the first header, and the sections. -/
def sections : List Statement → List Pair × List Section
  | [] => ([], [])
  | line :: rest =>
    let (pairs, parts) := sections rest
    match line with
    | .blank => (pairs, parts)
    | .pair pair => (pair :: pairs, parts)
    | .header header => ([], ⟨header, pairs⟩ :: parts)

/-- The table that the lines of a document describe. -/
def assemble? (lines : List Statement) : Option Entries := do
  let (pairs, parts) := sections lines
  parts.foldlM Value.addSection (← Value.insertPairs [] pairs)

/-- The text without the mark that may start a file. -/
def skipByteOrderMark : List Char → List Char
  | '\ufeff' :: rest => rest
  | text => text

/-- The table that a document describes, if it is well-formed. -/
def parse? (text : String) : Option Entries := do
  assemble? (← statements? (skipByteOrderMark text.toList))

example : ((parse? "a.b = 1\n[c]\n[[d]]\n").map fun entries => entries.map (·.1)) =
    some ["a", "c", "d"] := by decide +kernel
example : (parse? "a.b = 1\n[a]\n").isNone := by decide +kernel
example : (parse? "[a.b]\n[a]\n").isSome := by decide +kernel

end Nomenclator.Toml
