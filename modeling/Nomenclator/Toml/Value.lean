/-!
# Values and tables

The values a document can hold. Tables keep their entries in the order in which
they were written and remember how they came to be, because that decides what a
later line may add to them.

* `Value.editAt` follows a path of keys and changes the table at its end.
* `Value.insertPair` is what a line `a.b.c = value` does to a table.
* `Value.addSection` is what a header with the lines below it does to the
  document.
-/

namespace Nomenclator.Toml

/-- How a table came to be. -/
inductive Origin where
  /-- Written in braces as one value. -/
  | inline
  /-- Under a header of its own. -/
  | header
  /-- Named on the way to the table of a header. -/
  | implied
  /-- Named on the way to the value of a dotted key. -/
  | dotted
  deriving DecidableEq, Repr

/-- A value of a document. -/
inductive Value where
  | text (content : String)
  | integer (number : Int)
  /-- A number with a fraction or an exponent, or no number at all, as it was
      written. -/
  | float (numeral : String)
  | boolean (truth : Bool)
  /-- A date, a time or both, as it was written. -/
  | dateTime (written : String)
  | array (elements : List Value)
  | table (origin : Origin) (entries : List (String × Value))
  /-- The tables under repeated headers of one name. -/
  | tables (elements : List (List (String × Value)))
  deriving Repr

/-- The entries of a table in the order in which they were written. -/
abbrev Entries := List (String × Value)

/-- The keys from a table down to a value inside it. -/
structure DottedKey where
  /-- The keys of the tables on the way. -/
  lead : List String
  last : String
  deriving DecidableEq, Repr

/-- A line that gives a key its value. -/
structure Pair where
  key : DottedKey
  value : Value
  deriving Repr

/-- A line that says where the pairs below it belong. -/
inductive Header where
  /-- To a table that has no header yet. -/
  | table (key : DottedKey)
  /-- To a new table at the end of a list of tables. -/
  | element (key : DottedKey)
  deriving DecidableEq, Repr

/-- A header and the pairs below it. -/
structure Section where
  header : Header
  pairs : List Pair
  deriving Repr

/-- What leads into a table: the key of a pair or that of a header. -/
inductive Route where
  | ofPair
  | ofHeader
  deriving DecidableEq, Repr

namespace Route

/-- The origin of tables that are made on the way. -/
def made : Route → Origin
  | ofPair => .dotted
  | ofHeader => .implied

/-- The route may lead into a table of that origin. A table in braces is
    complete, and one with a header takes pairs only below that header. -/
def mayEnter : Route → Origin → Bool
  | _, .inline => false
  | ofPair, .header => false
  | _, _ => true

end Route

namespace Value

/-- Gives a key that is present a new value, in its old place. -/
def replaceEntry (entries : Entries) (key : String) (value : Value) : Entries :=
  entries.map fun entry => if entry.1 = key then (key, value) else entry

/-- Changes the table at the end of a path. Tables that the path names and that
    are not there are made, and a list of tables stands for its last one. -/
def editAt (route : Route) (change : Origin → Entries → Option Entries) :
    List String → Origin → Entries → Option Entries
  | [], origin, entries => change origin entries
  | key :: path, _, entries =>
    match entries.lookup key with
    | none => do
      let inner ← editAt route change path route.made []
      some (entries ++ [(key, .table route.made inner)])
    | some (.table origin inner) =>
      if route.mayEnter origin then do
        let inner ← editAt route change path origin inner
        some (replaceEntry entries key (.table origin inner))
      else none
    | some (.tables elements) => do
      let last ← editAt route change path .header (← elements.getLast?)
      some (replaceEntry entries key (.tables (elements.dropLast ++ [last])))
    | some _ => none

/-- A new entry at the end of a table. -/
def appendEntry (entries : Entries) (key : String) (value : Value) : Option Entries :=
  if (entries.lookup key).isSome then none else some (entries ++ [(key, value)])

/-- Adds a pair to a table. A dotted key adds only to tables that dotted keys
    have made. -/
def insertPair (entries : Entries) (pair : Pair) : Option Entries :=
  editAt .ofPair
    (fun origin inner =>
      if pair.key.lead = [] ∨ origin = .dotted then appendEntry inner pair.key.last pair.value
      else none)
    pair.key.lead .header entries

/-- Adds pairs one after the other. -/
def insertPairs (entries : Entries) (pairs : List Pair) : Option Entries :=
  pairs.foldlM insertPair entries

/-- Adds a header with its pairs. A table that was only implied moves to the
    end, where its header stands, and keeps what it holds. -/
def addSection (root : Entries) (part : Section) : Option Entries :=
  match part.header with
  | .table key =>
    editAt .ofHeader
      (fun _ entries =>
        match entries.lookup key.last with
        | none => do
          let inner ← insertPairs [] part.pairs
          some (entries ++ [(key.last, .table .header inner)])
        | some (.table .implied inner) => do
          let inner ← insertPairs inner part.pairs
          some (entries.filter (·.1 ≠ key.last) ++ [(key.last, .table .header inner)])
        | some _ => none)
      key.lead .header root
  | .element key =>
    editAt .ofHeader
      (fun _ entries =>
        match entries.lookup key.last with
        | none => do
          let inner ← insertPairs [] part.pairs
          some (entries ++ [(key.last, .tables [inner])])
        | some (.tables elements) => do
          let inner ← insertPairs [] part.pairs
          some (replaceEntry entries key.last (.tables (elements ++ [inner])))
        | some _ => none)
      key.lead .header root

/-! ## What is inside a value -/

/-- The elements of an array or of a list of tables. -/
def elements? : Value → Option (List Value)
  | .array elements => some elements
  | .tables elements => some (elements.map (.table .header))
  | _ => none

end Value

end Nomenclator.Toml
