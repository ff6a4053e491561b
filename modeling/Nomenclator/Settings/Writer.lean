import Nomenclator.Settings.Reader
import Nomenclator.Toml.Writer

/-!
# Writing settings

Settings are written as a document that gives every key but those of class names
and rules, which are left out if there are none.

Specification: `SPEC_FULL.md` §10, configuration.
-/

namespace Nomenclator

open Toml (writePair writeHeader writeElementHeader writeText writeTexts writeBoolean writeNumber)

/-- The section of the names of classes. -/
def ClassNaming.write (naming : ClassNaming) : List Char :=
  writeHeader "classes" ++
    writePair "format" (writeText naming.format) ++
    writePair "package" (writeText naming.package)

/-- The lines of the modifiers that a rule does not leave open. -/
def Requirements.write (requirements : Requirements) : List Char :=
  Modifier.all.flatMap fun modifier =>
    match requirements.get? modifier with
    | some expected => writePair modifier.key (writeBoolean expected)
    | none => []

/-- The sections of a rule. -/
def FieldRule.write (rule : FieldRule) : List Char :=
  writeElementHeader "field_rules" ++
    writePair "descriptor" (writeText rule.descriptor) ++
    writePair "name" (writeText rule.name) ++
    writeHeader "field_rules.requirements" ++
    rule.requirements.write

namespace Settings

/-- The pairs before the first header. -/
def writePairs (settings : Settings) : List Char :=
  writePair "next_member" (writeNumber settings.nextMember.toNat) ++
    writePair "next_class" (writeNumber settings.nextClass.toNat) ++
    writePair "excluded_packages" (writeTexts settings.excludedPackages) ++
    writePair "field_prefix" (writeText settings.fieldPrefix) ++
    writePair "method_prefix" (writeText settings.methodPrefix) ++
    writePair "map_fields" (writeBoolean settings.mapFields) ++
    writePair "map_methods" (writeBoolean settings.mapMethods) ++
    writePair "map_synthetic_values" (writeBoolean settings.mapSyntheticValues) ++
    writePair "recover_enum_constants" (writeBoolean settings.recoverEnumConstants)

/-- The document that gives the settings. -/
def document (settings : Settings) : List Char :=
  settings.writePairs ++ settings.classes.toList.flatMap ClassNaming.write ++
    settings.fieldRules.flatMap FieldRule.write

/-- The texts in the document, in order. -/
def texts (settings : Settings) : List String :=
  settings.excludedPackages ++ [settings.fieldPrefix, settings.methodPrefix] ++
    settings.classes.toList.flatMap (fun naming => [naming.format, naming.package]) ++
    settings.fieldRules.flatMap fun rule => [rule.descriptor, rule.name]

/-- The document as a text (`to_toml_string`, §10). -/
def toText (settings : Settings) : String := String.ofList settings.document

/-- The document as a text, unless the writer refuses a text in it. Which texts a writer
    refuses, if any, is no matter of settings. -/
def written? (refuses : String → Bool) (settings : Settings) : Option String :=
  if settings.texts.any refuses then none else some settings.toText

end Settings

end Nomenclator
