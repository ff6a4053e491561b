import Nomenclator.ClassFile.Basic

/-!
# Rules that name fields

A rule gives its name to every field with a certain descriptor whose modifiers
meet the requirements of the rule. A modifier may be required, forbidden or
left open.

Specification: `SPEC_FULL.md` §4.3, field-name rules.
-/

namespace Nomenclator

/-- For each modifier whether a field must have it, must not have it, or
    either. -/
structure Requirements where
  isPublic : Option Bool := none
  isPrivate : Option Bool := none
  isStatic : Option Bool := none
  isFinal : Option Bool := none
  isSynthetic : Option Bool := none
  deriving DecidableEq, Repr

namespace Requirements

/-- What is required of a modifier. -/
def get? (requirements : Requirements) : Modifier → Option Bool
  | .isPublic => requirements.isPublic
  | .isPrivate => requirements.isPrivate
  | .isStatic => requirements.isStatic
  | .isFinal => requirements.isFinal
  | .isSynthetic => requirements.isSynthetic

/-- The requirements with one of them set. -/
def set (requirements : Requirements) (modifier : Modifier) (expected : Bool) : Requirements :=
  match modifier with
  | .isPublic => { requirements with isPublic := some expected }
  | .isPrivate => { requirements with isPrivate := some expected }
  | .isStatic => { requirements with isStatic := some expected }
  | .isFinal => { requirements with isFinal := some expected }
  | .isSynthetic => { requirements with isSynthetic := some expected }

/-- The access flags meet all requirements. -/
def areMetBy (requirements : Requirements) (flags : AccessFlags) : Bool :=
  Modifier.all.all fun modifier =>
    match requirements.get? modifier with
    | some expected => modifier.isSet flags == expected
    | none => true

end Requirements

/-- The name for fields with the descriptor and modifiers of the rule (`FieldNameRule`,
    §4.3). -/
structure FieldRule where
  descriptor : String
  name : String
  requirements : Requirements := {}
  deriving DecidableEq, Repr

namespace FieldRule

/-- The rule applies to a field. -/
def appliesTo (rule : FieldRule) (descriptor : String) (flags : AccessFlags) : Bool :=
  rule.descriptor = descriptor && rule.requirements.areMetBy flags

/-- The last of the rules that applies to a field. -/
def last? (rules : List FieldRule) (descriptor : String) (flags : AccessFlags) :
    Option FieldRule :=
  rules.reverse.find? (·.appliesTo descriptor flags)

end FieldRule

end Nomenclator
