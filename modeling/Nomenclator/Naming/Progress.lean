import Nomenclator.Naming.EnumConstants
import Nomenclator.Naming.Event
import Nomenclator.Renames
import Nomenclator.Resolution
import Nomenclator.Settings.Basic
import Nomenclator.Text.CaseOrder

/-!
# The steps of a naming run

What a run has done so far, and the steps by which it goes on: rules name
fields, constants of enumerations are recovered, classes are named, the members
that a class defines itself are numbered, and methods that override one of an
ancestor take its name.

Only rules replace a name that is already set. A step that needs a number fails
when the counter cannot go on.

Specification: `SPEC_FULL.md` §4.3, the passes of the synthesizer.
-/

namespace Nomenclator

/-! ## Conventions -/

/-- How a run compares letters and how its counters go on. -/
structure Conventions where
  /-- The lower-case expansion of a character. -/
  lower : Char → List Char
  /-- The number after a number, unless the counter cannot hold it. -/
  advance : Nat → Option Nat

/-- A counter of 32 bits, which does not wrap around. -/
def Conventions.advance32 (n : Nat) : Option Nat :=
  if n < 4294967295 then some (n + 1) else none

/-- A counter without bound. -/
def Conventions.advanceUnbounded (n : Nat) : Option Nat := some (n + 1)

/-! ## Progress -/

/-- How many names each kind of step has set. -/
structure Tally where
  ruleFields : Nat := 0
  recoveredConstants : Nat := 0
  namedClasses : Nat := 0
  namedFields : Nat := 0
  namedMethods : Nat := 0
  propagatedMethods : Nat := 0
  deriving DecidableEq, Repr

/-- What a run has done so far. -/
structure Progress where
  renames : Renames
  /-- The number of the next field or method. -/
  nextMember : Nat := 0
  /-- The number of the last class. -/
  nextClass : Nat := 0
  tally : Tally := {}
  log : Array Event := #[]

namespace Progress

/-- One more event. -/
def note (progress : Progress) (event : Event) : Progress :=
  { progress with log := progress.log.push event }

/-- The hierarchy was asked about these classes. -/
def noteAsked (progress : Progress) (classNames : List String) : Progress :=
  { progress with log := progress.log ++ (classNames.map Event.asked).toArray }

/-! ## Rules -/

/-- Names a field after the last rule that applies to it, whatever its name
    was (field-name rules, §4.3). -/
def applyRules (rules : List FieldRule) (source : SourceClass) (progress : Progress)
    (field : SourceMember) : Progress :=
  match FieldRule.last? rules field.descriptor field.access with
  | some rule =>
    let renames :=
      progress.renames.setFieldName source.name field.name (some field.descriptor) rule.name
    let tally := { progress.tally with ruleFields := progress.tally.ruleFields + 1 }
    { progress with renames, tally }.note (.ruleMatched source.name field.name rule.name)
  | none => progress

/-- Applies the rules to every field of a class. -/
def applyRulesToClass (rules : List FieldRule) (progress : Progress) (source : SourceClass) :
    Progress :=
  source.fields.foldl (applyRules rules source) progress

/-! ## Enumeration constants -/

/-- Makes an entry for a bound field and names it after its constant, unless it
    has a name (enum constant recovery, §4.3). -/
def bindConstant (className : String) (progress : Progress) (binding : String × String) :
    Progress :=
  let (field, constant) := binding
  let descriptor := some (EnumConstants.descriptor className)
  if (progress.renames.fieldName? className field).isSome then
    { progress with renames := progress.renames.enterField className field descriptor }
  else
    let renames := progress.renames.setFieldName className field descriptor constant
    let tally :=
      { progress.tally with recoveredConstants := progress.tally.recoveredConstants + 1 }
    { progress with renames, tally }.note (.constantRecovered className field constant)

/-- Recovers the constants of a class. One whose initializer cannot be decoded is
    passed over (§4.3). -/
def recoverConstants (progress : Progress) (source : SourceClass) : Progress :=
  match EnumConstants.ofClass source with
  | .ok bindings => bindings.foldl (bindConstant source.name) progress
  | .error cause => progress.note (.undecodable source.name cause)

/-! ## Classes -/

/-- The new name of a class: the formatted simple name, behind the package
    unless the class is inside another (class intermediary naming, §4.3). -/
def newClassName (naming : ClassNaming) (id : Nat) (className : String) : String :=
  let simple := Text.afterLast '/' className
  match enclosing? simple with
  | some (_, inner) => naming.formatName id inner
  | none => naming.packageLead ++ naming.formatName id simple

/-- Makes an entry for a class and names it, unless it has a name. -/
def nameClass (conventions : Conventions) (naming : ClassNaming) (progress : Progress)
    (source : SourceClass) : Option Progress :=
  if (progress.renames.className? source.name).isSome then some progress
  else do
    let id ← conventions.advance progress.nextClass
    let newName := newClassName naming id source.name
    let renames := progress.renames.setClassName source.name newName
    let tally := { progress.tally with namedClasses := progress.tally.namedClasses + 1 }
    return { progress with renames, tally, nextClass := id }.note
      (.classNamed source.name newName)

/-! ## Members that classes define themselves -/

/-- Hands out the next number for a member. -/
def takeMember (conventions : Conventions) (progress : Progress) : Option (Nat × Progress) := do
  let next ← conventions.advance progress.nextMember
  return (progress.nextMember, { progress with nextMember := next })

/-- The name of the array of all constants of an enumeration. -/
def valuesName : String := "$VALUES"

/-- The field is the array in which an enumeration keeps its constants (the enum
    special case of Pass 1, §4.3). -/
def isValuesArray (source : SourceClass) (field : SourceMember) : Bool :=
  source.superName = some EnumConstants.superName && Modifier.isSynthetic.isSet field.access &&
    match FieldType.parse field.descriptor with
    | .ok type => type.isArrayOfClass source.name
    | .error _ => false

/-- The field keeps its name because of how it is called (the skipped fields of
    Pass 1, §4.3). -/
def keepsFieldName (settings : Settings) (name : String) : Bool :=
  Text.startsWith name settings.fieldPrefix || Text.startsWith name "this$" ||
    Text.startsWith name "val$" || Text.equalsIgnoringAsciiCase name valuesName

/-- The name of a numbered member: what marks its kind, the number and the old
    name. -/
def numberedName (lead : String) (id : Nat) (oldName : String) : String :=
  lead ++ toString id ++ "_" ++ oldName

/-- Gives a field a new name. -/
def setField (source : SourceClass) (field : SourceMember) (newName : String)
    (progress : Progress) : Progress :=
  let renames :=
    progress.renames.setFieldName source.name field.name (some field.descriptor) newName
  let tally := { progress.tally with namedFields := progress.tally.namedFields + 1 }
  { progress with renames, tally }.note (.fieldNamed source.name field.name newName)

/-- Names a field, unless it has a name or keeps the one it has (Pass 1, §4.3). -/
def defineField (conventions : Conventions) (settings : Settings) (source : SourceClass)
    (progress : Progress) (field : SourceMember) : Option Progress :=
  if (progress.renames.fieldName? source.name field.name).isSome ||
      keepsFieldName settings field.name then
    some progress
  else if settings.mapSyntheticValues && isValuesArray source field then
    some (progress.setField source field valuesName)
  else do
    let (id, progress) ← progress.takeMember conventions
    return progress.setField source field (numberedName settings.fieldPrefix id field.name)

/-- The parameters of the method at which programs start. -/
def mainDescriptor : String := "([Ljava/lang/String;)V"

/-- The method keeps its name whatever class it is in: constructors and
    initializers, methods that compilers make up, and the start of a
    program. -/
def isProtected (key : MethodKey) : Bool :=
  Text.equalsIgnoringAsciiCase key.name "<init>" ||
    Text.equalsIgnoringAsciiCase key.name "<clinit>" ||
    Text.startsWith key.name "lambda$" || Text.startsWith key.name "access$" ||
    key = ⟨"main", mainDescriptor⟩

/-- The method is one of the two that every enumeration has. -/
def isEnumMethod (source : SourceClass) (key : MethodKey) : Bool :=
  source.superName = some EnumConstants.superName &&
    (key = ⟨"valueOf", "(Ljava/lang/String;)L" ++ source.name ++ ";"⟩ ||
     key = ⟨"values", "()[L" ++ source.name ++ ";"⟩)

/-- The method keeps its name (the skipped methods of Pass 1, §4.3). -/
def keepsMethodName (settings : Settings) (source : SourceClass) (method : SourceMember) : Bool :=
  isProtected method.key || AccessFlags.areNative method.access ||
    isEnumMethod source method.key || Text.startsWith method.name settings.methodPrefix

/-- Gives a method that its class defines a new name. -/
def setMethod (source : SourceClass) (key : MethodKey) (newName : String)
    (progress : Progress) : Progress :=
  let renames := progress.renames.setMethodName source.name key newName
  let tally := { progress.tally with namedMethods := progress.tally.namedMethods + 1 }
  { progress with renames, tally }.note (.methodNamed source.name key newName)

/-- Names a method, unless an ancestor declares it too, it has a name or it
    keeps the one it has (Pass 1, §4.3). -/
def defineMethod (conventions : Conventions) (hierarchy : Hierarchy) (settings : Settings)
    (source : SourceClass) (progress : Progress) (method : SourceMember) : Option Progress :=
  let search := hierarchy.findDeclaring source.shape method.key
  let progress := progress.noteAsked search.examined
  if search.found.isSome || (progress.renames.methodName? source.name method.key).isSome ||
      keepsMethodName settings source method then
    some progress
  else do
    let (id, progress) ← progress.takeMember conventions
    return progress.setMethod source method.key
      (numberedName settings.methodPrefix id method.name)

/-- Members by name without regard to case, then by descriptor. -/
def membersInOrder (conventions : Conventions) (members : List SourceMember) :
    List SourceMember :=
  members.mergeSort fun a b =>
    ((Text.compareIgnoringCase conventions.lower a.name b.name).then
      (compare a.descriptor b.descriptor)).isLE

/-- Names the fields that a class defines. -/
def defineFields (conventions : Conventions) (settings : Settings) (progress : Progress)
    (source : SourceClass) : Option Progress :=
  if settings.mapFields then
    (membersInOrder conventions source.fields).foldlM
      (defineField conventions settings source) progress
  else some progress

/-- Names the methods that a class defines. -/
def defineMethods (conventions : Conventions) (hierarchy : Hierarchy) (settings : Settings)
    (progress : Progress) (source : SourceClass) : Option Progress :=
  if settings.mapMethods then
    (membersInOrder conventions source.methods).foldlM
      (defineMethod conventions hierarchy settings source) progress
  else some progress

/-- Names the members that a class defines, fields before methods. -/
def defineClass (conventions : Conventions) (hierarchy : Hierarchy) (settings : Settings)
    (progress : Progress) (source : SourceClass) : Option Progress := do
  let progress ← defineFields conventions settings progress source
  defineMethods conventions hierarchy settings progress source

/-! ## Overriding methods -/

/-- The search for the nearest ancestor in whose entry the method has a new
    name. -/
def findInherited (hierarchy : Hierarchy) (renames : Renames) (source : SourceClass)
    (key : MethodKey) : Walk String :=
  hierarchy.findAncestor source.shape fun ancestor => renames.methodName? ancestor.name key

/-- Gives a method that overrides one of an ancestor its name. -/
def setInherited (source : SourceClass) (key : MethodKey) (newName : String)
    (progress : Progress) : Progress :=
  let renames := progress.renames.setMethodName source.name key newName
  let tally :=
    { progress.tally with propagatedMethods := progress.tally.propagatedMethods + 1 }
  { progress with renames, tally }.note (.methodInherited source.name key newName)

/-- Names a method after the one it overrides, unless it overrides none, it has
    a name or there is no name to take (Pass 2, §4.3). -/
def propagateMethod (hierarchy : Hierarchy) (source : SourceClass) (progress : Progress)
    (method : SourceMember) : Progress :=
  let search := hierarchy.findDeclaring source.shape method.key
  let progress := progress.noteAsked search.examined
  if search.found.isNone || (progress.renames.methodName? source.name method.key).isSome then
    progress
  else
    let inherited := findInherited hierarchy progress.renames source method.key
    let progress := progress.noteAsked inherited.examined
    match inherited.found with
    | some newName => progress.setInherited source method.key newName
    | none => progress

/-- Names the methods of a class after those they override. -/
def propagateClass (hierarchy : Hierarchy) (progress : Progress) (source : SourceClass) :
    Progress :=
  source.methods.foldl (propagateMethod hierarchy source) progress

end Progress

end Nomenclator
