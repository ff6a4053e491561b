import Nomenclator.ClassFile.Instruction

/-!
# Class files

The parts of a class file that renaming needs: names, access flags, the
interfaces and members in their order, and of the attributes only the generic
signature and the code. When an attribute of one of these two names occurs more
than once, the last one counts; every other attribute is skipped unread.

Specification: `SPEC_FULL.md` §2, the class-file reader, and §8, property 16.
-/

namespace Nomenclator

/-! ## Access flags -/

/-- The flags of a class or member, one bit each. -/
abbrev AccessFlags := UInt16

/-- The flags that naming rules can ask for. -/
inductive Modifier where
  | isPublic
  | isPrivate
  | isStatic
  | isFinal
  | isSynthetic
  deriving DecidableEq, Repr

namespace Modifier

/-- The modifiers in their usual order. -/
def all : List Modifier := [isPublic, isPrivate, isStatic, isFinal, isSynthetic]

/-- The bit of a flag. -/
def bit : Modifier → AccessFlags
  | isPublic => 0x0001
  | isPrivate => 0x0002
  | isStatic => 0x0008
  | isFinal => 0x0010
  | isSynthetic => 0x1000

/-- The flag is set. -/
def isSet (modifier : Modifier) (flags : AccessFlags) : Bool := flags &&& modifier.bit != 0

end Modifier

/-- The flags are those of a method whose code is not in the class file. -/
def AccessFlags.areNative (flags : AccessFlags) : Bool := flags &&& 0x0100 != 0

/-! ## Attributes -/

/-- What the attributes of a class or member say. -/
structure Attributes where
  signature : Option String := none
  code : Option Code := none

namespace Attributes

/-- The signature in an attribute of two bytes. -/
def signatureOf (pool : ConstantPool) (info : List UInt8) : Except Malformed String := do
  let (index, rest) ← Decoder.within info Decoder.word
  let signature ← pool.text index
  if rest.isEmpty then return signature else throw (.badAttribute "Signature")

/-- The code in an attribute. What follows the instructions is not read. -/
def codeOf (pool : ConstantPool) (info : List UInt8) : Except Malformed Code := do
  let ((maxStack, maxLocals, length), rest) ← Decoder.within info do
    let maxStack ← Decoder.word
    let maxLocals ← Decoder.word
    let length ← Decoder.doubleWord
    return (maxStack, maxLocals, length)
  let bytes := rest.take length.toNat
  if bytes.length = length.toNat then return ⟨maxStack, maxLocals, bytes, pool⟩
  else throw (.badAttribute "Code")

/-- The attributes after one more, given by name and contents. -/
def add (pool : ConstantPool) (attributes : Attributes) (name : String) (info : List UInt8) :
    Except Malformed Attributes :=
  if name = "Signature" then
    return { attributes with signature := some (← signatureOf pool info) }
  else if name = "Code" then
    return { attributes with code := some (← codeOf pool info) }
  else return attributes

/-- `count` more attributes. -/
def readMore (pool : ConstantPool) : (count : Nat) → Attributes → Decoder Attributes
  | 0, attributes => return attributes
  | count + 1, attributes => do
    let nameIndex ← Decoder.word
    let length ← Decoder.doubleWord
    let info ← Decoder.take length.toNat
    let name ← pool.text nameIndex
    let attributes ← attributes.add pool name info
    readMore pool count attributes

/-- A table of attributes. -/
def read (pool : ConstantPool) : Decoder Attributes := do
  let count ← Decoder.word
  readMore pool count.toNat {}

end Attributes

/-! ## Members and classes -/

/-- A field or method of a class file. -/
structure Member where
  access : AccessFlags
  name : String
  descriptor : String
  signature : Option String
  code : Option Code

/-- A field or method: flags, name, descriptor and attributes. -/
def Member.read (pool : ConstantPool) : Decoder Member := do
  let access ← Decoder.word
  let name ← pool.text (← Decoder.word)
  let descriptor ← pool.text (← Decoder.word)
  let attributes ← Attributes.read pool
  return ⟨access, name, descriptor, attributes.signature, attributes.code⟩

/-- A class as its file describes it (`ClassFile`, §2). -/
structure ClassFile where
  minorVersion : UInt16
  majorVersion : UInt16
  access : AccessFlags
  name : String
  superName : Option String
  interfaces : List String
  fields : List Member
  methods : List Member
  signature : Option String

namespace ClassFile

/-- The number every class file starts with. -/
def magic : UInt32 := 0xcafebabe

/-- The name of the class in a slot. -/
def readClassName (pool : ConstantPool) : Decoder String := do
  pool.className (← Decoder.word)

/-- The name of the superclass; slot zero says that there is none. -/
def readSuperName (pool : ConstantPool) : Decoder (Option String) := do
  let index ← Decoder.word
  if index = 0 then return none else return some (← pool.className index)

/-- A class file, and possibly more bytes behind it. -/
def read : Decoder ClassFile := do
  let found ← Decoder.doubleWord
  if found ≠ magic then throw (.badMagic found)
  let minorVersion ← Decoder.word
  let majorVersion ← Decoder.word
  let pool ← ConstantPool.read
  let access ← Decoder.word
  let name ← readClassName pool
  let superName ← readSuperName pool
  let interfaces ← Decoder.table (readClassName pool)
  let fields ← Decoder.table (Member.read pool)
  let methods ← Decoder.table (Member.read pool)
  let attributes ← Attributes.read pool
  return { minorVersion, majorVersion, access, name, superName, interfaces, fields, methods,
           signature := attributes.signature }

/-- The class whose file consists of exactly these bytes. -/
def parse (bytes : List UInt8) : Except Malformed ClassFile := do
  let (file, rest) ← read.run bytes
  if rest.isEmpty then return file else throw (.trailingBytes rest.length)

/-- The first method with this name and descriptor. -/
def method? (file : ClassFile) (name descriptor : String) : Option Member :=
  file.methods.find? fun m => m.name = name && m.descriptor = descriptor

end ClassFile

end Nomenclator
