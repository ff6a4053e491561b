import Nomenclator.Hierarchy.ClassShape

/-!
# Classes to be named

A class of the program at hand: its shape together with what naming needs to
know beyond it, the access flags of its members and its static initializer.

Specification: `SPEC_FULL.md` §3, source-set records.
-/

namespace Nomenclator

/-- A field or method of a class to be named (`SourceField`, `SourceMethod`, §3). -/
structure SourceMember where
  name : String
  descriptor : String
  access : AccessFlags
  deriving DecidableEq

/-- What identifies the member if it is a method. -/
def SourceMember.key (member : SourceMember) : MethodKey := ⟨member.name, member.descriptor⟩

/-- The body of a static initializer (`Bytecode`, §3). Code from a class file is
    decoded only when its instructions are asked for. -/
inductive Initializer where
  | decoded (instructions : List Instruction)
  | raw (code : Code)

/-- The instructions of a static initializer. -/
def Initializer.instructions : Initializer → Except Malformed (List Instruction)
  | decoded instructions => .ok instructions
  | raw code => code.instructions

/-- A class to be named (`SourceClass`, §3). -/
structure SourceClass where
  shape : ClassShape
  fields : List SourceMember
  methods : List SourceMember
  staticInit : Option Initializer

namespace SourceClass

/-- What identifies the static initializer among the methods of a class. -/
def staticInitKey : MethodKey := ⟨"<clinit>", "()V"⟩

/-- The name of the class. -/
def name (source : SourceClass) : String := source.shape.name

/-- The superclass of the class. -/
def superName (source : SourceClass) : Option String := source.shape.superName

/-- A class without interfaces and members. -/
def new (name : String) (superName : Option String) : SourceClass :=
  ⟨ClassShape.new name superName, [], [], none⟩

/-- One more interface, unless it is there already. -/
def addInterface (source : SourceClass) (name : String) : SourceClass :=
  { source with shape := source.shape.addInterface name }

/-- One more field. -/
def addField (source : SourceClass) (access : AccessFlags) (name descriptor : String) :
    SourceClass :=
  { source with
    shape := source.shape.addField name (some descriptor)
    fields := source.fields ++ [⟨name, descriptor, access⟩] }

/-- One more method. -/
def addMethod (source : SourceClass) (access : AccessFlags) (name descriptor : String) :
    SourceClass :=
  { source with
    shape := source.shape.addMethod ⟨name, descriptor⟩
    methods := source.methods ++ [⟨name, descriptor, access⟩] }

/-- A static initializer with these instructions. A method for it is added
    unless the class declares one. -/
def setStaticInit (source : SourceClass) (instructions : List Instruction) : SourceClass :=
  let declared :=
    if source.shape.declares staticInitKey then source
    else source.addMethod Modifier.isStatic.bit staticInitKey.name staticInitKey.descriptor
  { declared with staticInit := some (.decoded instructions) }

/-- A member of a class file as naming sees it. -/
def memberOf (member : Member) : SourceMember := ⟨member.name, member.descriptor, member.access⟩

/-- The class of a class file (`from_class_file`, §3). -/
def ofClassFile (file : ClassFile) : SourceClass where
  shape := ClassShape.ofClassFile file
  fields := file.fields.map memberOf
  methods := file.methods.map memberOf
  staticInit :=
    (file.method? staticInitKey.name staticInitKey.descriptor).bind fun method =>
      method.code.map .raw

/-- The class whose file consists of exactly these bytes (`parse`, §3). -/
def parse (bytes : List UInt8) : Except Malformed SourceClass := do
  let file ← ClassFile.parse bytes
  return ofClassFile file

/-- How a refused class file is reported. -/
def parseMessage (cause : Malformed) : String := "malformed class file: " ++ cause.message

end SourceClass

end Nomenclator
