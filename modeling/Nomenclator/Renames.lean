import Nomenclator.Hierarchy.ClassShape

/-!
# Renames

The new names of classes, fields and methods. Each has an entry once it has
been mentioned, and a new name only once one has been set. Classes and fields
are found by name and methods by name and descriptor; entries are in order of
their keys.

A field entry keeps the first descriptor that is given for it.

Specification: `SPEC_FULL.md` §3 and §6, the mapping store.
-/

namespace Nomenclator

/-- The entry of a field. -/
structure FieldRename where
  descriptor : Option String := none
  newName : Option String := none
  deriving DecidableEq

/-- The entry of a class with the entries of its members. -/
structure ClassRename where
  newName : Option String := none
  fields : OrderedMap String FieldRename := ∅
  /-- The new name of each method, if it has one. -/
  methods : OrderedMap MethodKey (Option String) := ∅
  deriving DecidableEq

/-- The entries of all classes (`MappingSet`, §2). -/
structure Renames where
  classes : OrderedMap String ClassRename := ∅
  deriving DecidableEq

namespace Renames

/-! ## Looking up -/

/-- The entry of a class. -/
def class? (renames : Renames) (name : String) : Option ClassRename := renames.classes.find? name

/-- The entry of a field. -/
def field? (renames : Renames) (owner name : String) : Option FieldRename :=
  (renames.class? owner).bind (·.fields.find? name)

/-- The entry of a method, which holds its new name if it has one. -/
def method? (renames : Renames) (owner : String) (key : MethodKey) : Option (Option String) :=
  (renames.class? owner).bind (·.methods.find? key)

/-- The new name of a class. -/
def className? (renames : Renames) (name : String) : Option String :=
  (renames.class? name).bind (·.newName)

/-- The new name of a field in its own class. -/
def fieldName? (renames : Renames) (owner name : String) : Option String :=
  (renames.field? owner name).bind (·.newName)

/-- The new name of a method in its own class. -/
def methodName? (renames : Renames) (owner : String) (key : MethodKey) : Option String :=
  (renames.method? owner key).join

/-- The number of classes with an entry. -/
def size (renames : Renames) : Nat := renames.classes.size

/-! ## Entering -/

/-- Changes the entry of a class, which is made if it is missing. -/
def editClass (renames : Renames) (name : String) (f : ClassRename → ClassRename) : Renames :=
  ⟨renames.classes.update name fun before => f (before.getD {})⟩

/-- Changes the entry of a field, which is made if it is missing; the
    descriptor is entered if there is none. -/
def editField (renames : Renames) (owner name : String) (descriptor : Option String)
    (f : FieldRename → FieldRename) : Renames :=
  renames.editClass owner fun entry =>
    { entry with
      fields := entry.fields.update name fun before =>
        let field := before.getD {}
        f { field with descriptor := field.descriptor.or descriptor } }

/-- Changes the entry of a method, which is made if it is missing. -/
def editMethod (renames : Renames) (owner : String) (key : MethodKey)
    (f : Option String → Option String) : Renames :=
  renames.editClass owner fun entry =>
    { entry with methods := entry.methods.update key fun before => f before.join }

/-- Makes an entry for a class (`get_or_create_class_mapping`, §6). -/
def enterClass (renames : Renames) (name : String) : Renames := renames.editClass name id

/-- Makes an entry for a field (`get_or_create_field_mapping`, §6). -/
def enterField (renames : Renames) (owner name : String) (descriptor : Option String) : Renames :=
  renames.editField owner name descriptor id

/-- Makes an entry for a method (`get_or_create_method_mapping`, §6). -/
def enterMethod (renames : Renames) (owner : String) (key : MethodKey) : Renames :=
  renames.editMethod owner key id

/-- Sets the new name of a class. -/
def setClassName (renames : Renames) (name newName : String) : Renames :=
  renames.editClass name fun entry => { entry with newName := some newName }

/-- Sets the new name of a field. -/
def setFieldName (renames : Renames) (owner name : String) (descriptor : Option String)
    (newName : String) : Renames :=
  renames.editField owner name descriptor fun field => { field with newName := some newName }

/-- Sets the new name of a method. -/
def setMethodName (renames : Renames) (owner : String) (key : MethodKey) (newName : String) :
    Renames :=
  renames.editMethod owner key fun _ => some newName

end Renames

end Nomenclator
