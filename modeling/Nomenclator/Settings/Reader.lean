import Nomenclator.Settings.Basic
import Nomenclator.Toml.Document

/-!
# Reading settings

A record is read from a table, key by key in the order of the document, or from
an array that lists the values of its keys in their own order. What is not given
keeps its default; a key without a meaning is refused.

Specification: `SPEC_FULL.md` §10, configuration.
-/

namespace Nomenclator

open Toml (Value Entries)

/-! ## Values of one kind -/

namespace Toml.Value

/-- The text that a value must be. -/
def readText : Value → Except DocumentProblem String
  | .text content => .ok content
  | _ => .error .invalid

/-- The truth value that a value must be. -/
def readBoolean : Value → Except DocumentProblem Bool
  | .boolean truth => .ok truth
  | _ => .error .invalid

/-- The counter that a value must be. -/
def readCounter : Value → Except DocumentProblem UInt32
  | .integer number =>
    if 0 ≤ number ∧ number < 4294967296 then .ok (UInt32.ofNat number.toNat)
    else .error .invalid
  | _ => .error .invalid

/-- The list that a value must be, element by element. -/
def readList {α : Type} (readElement : Value → Except DocumentProblem α) (value : Value) :
    Except DocumentProblem (List α) :=
  match value.elements? with
  | some elements => elements.mapM readElement
  | none => .error .invalid

end Toml.Value

/-! ## Records -/

/-- A key of a record and what its value changes in the record. -/
structure RecordField (ρ : Type) where
  key : String
  set : ρ → Value → Except DocumentProblem ρ

/-- The key under which a date or a time is found when it stands where a record
    should. -/
def dateTimeKey : String := "$__toml_private_datetime"

namespace RecordField

variable {ρ : Type}

/-- The record after one entry of a table. -/
def readEntry (fields : List (RecordField ρ)) (record : ρ) (entry : String × Value) :
    Except DocumentProblem ρ :=
  match fields.find? (·.key = entry.1) with
  | some field => field.set record entry.2
  | none => .error (.unknownKey entry.1 (fields.map (·.key)))

/-- The record after all entries of a table. -/
def readEntries (fields : List (RecordField ρ)) (record : ρ) (entries : Entries) :
    Except DocumentProblem ρ :=
  entries.foldlM (readEntry fields) record

/-- The record after a value that gives it, as a table or as an array. -/
def readRecord (fields : List (RecordField ρ)) (record : ρ) (value : Value) :
    Except DocumentProblem ρ :=
  match value with
  | .table _ entries => readEntries fields record entries
  | .dateTime _ => .error (.unknownKey dateTimeKey (fields.map (·.key)))
  | _ =>
    match value.elements? with
    | some elements =>
      (fields.zip elements).foldlM (fun record given => given.1.set record given.2) record
    | none => .error .invalid

end RecordField

/-! ## The parts of settings -/

/-- The keys of the names of classes. -/
def ClassNaming.fields : List (RecordField ClassNaming) :=
  [⟨"format", fun naming value => do return { naming with format := ← value.readText }⟩,
   ⟨"package", fun naming value => do return { naming with package := ← value.readText }⟩]

/-- The key of a modifier. -/
def Modifier.key : Modifier → String
  | .isPublic => "public"
  | .isPrivate => "private"
  | .isStatic => "static"
  | .isFinal => "final"
  | .isSynthetic => "synthetic"

/-- The keys of requirements. -/
def Requirements.fields : List (RecordField Requirements) :=
  Modifier.all.map fun modifier =>
    ⟨modifier.key, fun requirements value => do
      return requirements.set modifier (← value.readBoolean)⟩

/-- As much of a rule as has been read. -/
structure FieldRule.Draft where
  descriptor : Option String := none
  name : Option String := none
  requirements : Requirements := {}

/-- The keys of a rule. -/
def FieldRule.fields : List (RecordField FieldRule.Draft) :=
  [⟨"descriptor", fun draft value => do return { draft with descriptor := ← value.readText }⟩,
   ⟨"name", fun draft value => do return { draft with name := ← value.readText }⟩,
   ⟨"requirements", fun draft value => do
      return { draft with
        requirements := ← RecordField.readRecord Requirements.fields {} value }⟩]

/-- The problem with a rule that does not give a key. -/
def FieldRule.lacking (key : String) : Value → DocumentProblem
  | .table _ _ => .missingKey key
  | _ => .invalid

/-- The rule that a value gives. -/
def FieldRule.read (value : Value) : Except DocumentProblem FieldRule := do
  let draft ← RecordField.readRecord FieldRule.fields {} value
  match draft.descriptor, draft.name with
  | some descriptor, some name => return ⟨descriptor, name, draft.requirements⟩
  | none, _ => throw (lacking "descriptor" value)
  | _, none => throw (lacking "name" value)

/-! ## Settings -/

namespace Settings

/-- The keys of settings. -/
def fields : List (RecordField Settings) :=
  [⟨"next_member", fun s value => do return { s with nextMember := ← value.readCounter }⟩,
   ⟨"next_class", fun s value => do return { s with nextClass := ← value.readCounter }⟩,
   ⟨"excluded_packages", fun s value => do
      return { s with excludedPackages := ← value.readList Value.readText }⟩,
   ⟨"field_prefix", fun s value => do return { s with fieldPrefix := ← value.readText }⟩,
   ⟨"method_prefix", fun s value => do return { s with methodPrefix := ← value.readText }⟩,
   ⟨"map_fields", fun s value => do return { s with mapFields := ← value.readBoolean }⟩,
   ⟨"map_methods", fun s value => do return { s with mapMethods := ← value.readBoolean }⟩,
   ⟨"map_synthetic_values", fun s value => do
      return { s with mapSyntheticValues := ← value.readBoolean }⟩,
   ⟨"recover_enum_constants", fun s value => do
      return { s with recoverEnumConstants := ← value.readBoolean }⟩,
   ⟨"classes", fun s value => do
      return { s with classes := ← RecordField.readRecord ClassNaming.fields {} value }⟩,
   ⟨"field_rules", fun s value => do
      return { s with fieldRules := ← value.readList FieldRule.read }⟩]

/-- The settings that the table of a document gives. -/
def ofEntries (entries : Entries) : Except DocumentProblem Settings :=
  RecordField.readEntries fields {} entries

/-- The settings that a document gives (`from_toml_str`, §10). They have to be valid. -/
def ofText (text : String) : Except SettingsError Settings :=
  match Toml.parse? text with
  | none => .error (.document .invalid)
  | some entries =>
    match ofEntries entries with
    | .error problem => .error (.document problem)
    | .ok settings => settings.validated

end Settings

end Nomenclator
