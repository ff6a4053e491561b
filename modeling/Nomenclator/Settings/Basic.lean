import Nomenclator.Naming.FieldRule
import Nomenclator.Text.Cut
import Nomenclator.Text.Quoted

/-!
# Settings

What a naming run can be told, and the counters that let a later run go on
where an earlier one stopped.

Specification: `SPEC_FULL.md` §10, configuration, and §4.3.
-/

namespace Nomenclator

/-! ## Names of classes -/

/-- How classes are named: a format in which `{id}` stands for the number of the
    class and `{obf}` for its old simple name, and a package for classes that
    are not inside another. -/
structure ClassNaming where
  format : String := "Class\x7bid\x7d_\x7bobf\x7d"
  package : String := ""
  deriving DecidableEq, Repr

namespace ClassNaming

/-- The placeholder for the number of a class. -/
def idPlaceholder : String := "\x7bid\x7d"

/-- The placeholder for the old simple name of a class. -/
def oldNamePlaceholder : String := "\x7bobf\x7d"

/-- The format filled in: first every number, then every old name. -/
def formatName (naming : ClassNaming) (id : Nat) (oldName : String) : String :=
  Text.replaceAll (Text.replaceAll naming.format idPlaceholder (toString id)) oldNamePlaceholder
    oldName

/-- The package as it stands before a class name: slashes for dots and exactly
    one slash at its end, unless there is nothing else. -/
def packageLead (naming : ClassNaming) : String :=
  let package := Text.dropTrailing '/' (Text.replaceChar '.' '/' naming.package)
  if package = "" then "" else package ++ "/"

end ClassNaming

/-! ## Settings -/

/-- The settings of a naming run (`IntermediaryConfig`, §10). -/
structure Settings where
  /-- The number of the next field or method. -/
  nextMember : UInt32 := 0
  /-- The number of the last class. -/
  nextClass : UInt32 := 0
  /-- What the names of classes that are left alone start with. -/
  excludedPackages : List String := []
  fieldPrefix : String := "field_"
  methodPrefix : String := "func_"
  mapFields : Bool := true
  mapMethods : Bool := true
  /-- Names the array of all constants of an enumeration. -/
  mapSyntheticValues : Bool := true
  recoverEnumConstants : Bool := true
  /-- Names classes as well. -/
  classes : Option ClassNaming := none
  fieldRules : List FieldRule := []
  deriving DecidableEq, Repr

/-! ## What can be wrong with settings -/

/-- What can be wrong with a document of settings. -/
inductive DocumentProblem where
  /-- The text is no document, or a value is not of the type its key asks for. -/
  | invalid
  /-- A table has a key that means nothing there. -/
  | unknownKey (key : String) (expected : List String)
  /-- A table lacks a key. -/
  | missingKey (key : String)
  deriving DecidableEq, Repr

/-- Why settings are refused (`ConfigError`, §7). -/
inductive SettingsError where
  /-- The file cannot be read as text. -/
  | unreadable
  /-- The file cannot be written. -/
  | unwritable
  /-- The document does not describe settings. -/
  | document (problem : DocumentProblem)
  /-- The format of class names has no place for the number. -/
  | missingId (format : String)
  /-- The text that marks new names must not be empty. -/
  | emptyLead (key : String)
  deriving DecidableEq, Repr

/-- What is reported when a counter cannot go on. -/
def counterOverflowMessage : String := "attempt to add with overflow"

/-- A key as messages show it. -/
def DocumentProblem.shownKey (key : String) : String := "`" ++ key ++ "`"

/-- The message that reports a problem, where it has one. -/
def DocumentProblem.message? : DocumentProblem → Option String
  | invalid => none
  | unknownKey key expected =>
    let alternatives :=
      match expected with
      | [] => "there are no fields"
      | [a] => "expected " ++ shownKey a
      | [a, b] => "expected " ++ shownKey a ++ " or " ++ shownKey b
      | many => "expected one of " ++ Text.joined ", " (many.map shownKey)
    some ("unknown field " ++ shownKey key ++ ", " ++ alternatives)
  | missingKey key => some ("missing field " ++ shownKey key)

/-- The message that reports an error, where it has one. -/
def SettingsError.message? : SettingsError → Option String
  | unreadable => none
  | unwritable => none
  | document problem => problem.message?.map ("failed to parse toml config: " ++ ·)
  | missingId format =>
    some ("invalid class name format " ++ Text.quoted format ++
      ": missing `\x7bid\x7d` placeholder")
  | emptyLead key => some ("`" ++ key ++ "` must not be empty")

namespace Settings

/-- The first thing that is wrong with the settings, if anything is. -/
def problem? (settings : Settings) : Option SettingsError :=
  if settings.fieldPrefix = "" then some (.emptyLead "field_prefix")
  else if settings.methodPrefix = "" then some (.emptyLead "method_prefix")
  else
    match settings.classes with
    | some naming =>
      if Text.contains naming.format ClassNaming.idPlaceholder then none
      else some (.missingId naming.format)
    | none => none

/-- The settings, unless something is wrong with them. -/
def validated (settings : Settings) : Except SettingsError Settings :=
  match settings.problem? with
  | some error => .error error
  | none => .ok settings

/-- The class is left alone because of how its name starts. A start written
    with dots is read with slashes. -/
def excludes (settings : Settings) (className : String) : Bool :=
  settings.excludedPackages.any fun start =>
    Text.startsWith className (Text.replaceChar '.' '/' start)

end Settings

end Nomenclator
