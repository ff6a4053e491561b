import Nomenclator.ClassFile.Basic
import Nomenclator.OrderedMap.Lemmas

/-!
# Class shapes

What the class hierarchy knows about a class: its name, its parents and which
members it declares. A field is identified by its name alone and a method by
its name and descriptor.

Specification: `SPEC_FULL.md` §3.
-/

namespace Nomenclator

open Std (TransOrd LawfulEqOrd)

/-! ## Methods -/

/-- What identifies a method of a class (`MethodSignature`, §3). -/
structure MethodKey where
  name : String
  descriptor : String
  deriving DecidableEq, Repr

namespace MethodKey

/-- By name, then by descriptor. -/
instance : Ord MethodKey :=
  ⟨compareLex (compareOn MethodKey.name) (compareOn MethodKey.descriptor)⟩

instance : TransOrd MethodKey :=
  inferInstanceAs (Std.TransCmp (compareLex (compareOn MethodKey.name)
    (compareOn MethodKey.descriptor)))

instance : LawfulEqOrd MethodKey where
  eq_of_compare {a b} h := by
    obtain ⟨hname, hdescriptor⟩ := compareLex_eq_eq.mp h
    have hn : compare a.name b.name = .eq := hname
    have hd : compare a.descriptor b.descriptor = .eq := hdescriptor
    cases a; cases b
    cases Std.LawfulEqCmp.eq_of_compare hn
    cases Std.LawfulEqCmp.eq_of_compare hd
    rfl

end MethodKey

/-! ## Classes -/

/-- What the hierarchy knows about a class (`ClassInfo`, §3). -/
structure ClassShape where
  name : String
  superName : Option String
  /-- The interfaces in the order of their declaration. -/
  interfaces : List String
  /-- The fields, each with a descriptor if one is known. -/
  fields : OrderedMap String (Option String)
  methods : OrderedMap MethodKey Unit
  deriving DecidableEq

namespace ClassShape

/-- A class without interfaces and members. -/
def new (name : String) (superName : Option String) : ClassShape :=
  ⟨name, superName, [], ∅, ∅⟩

/-- One more interface, unless it is there already. -/
def addInterface (shape : ClassShape) (name : String) : ClassShape :=
  if name ∈ shape.interfaces then shape
  else { shape with interfaces := shape.interfaces ++ [name] }

/-- One more field; the first descriptor given for a name stays. -/
def addField (shape : ClassShape) (name : String) (descriptor : Option String) : ClassShape :=
  { shape with fields := shape.fields.insertNew name descriptor }

/-- One more method. -/
def addMethod (shape : ClassShape) (key : MethodKey) : ClassShape :=
  { shape with methods := shape.methods.insertNew key () }

/-- The class declares the method. -/
def declares (shape : ClassShape) (key : MethodKey) : Bool := shape.methods.contains key

/-- The superclass, then the interfaces in order. -/
def parents (shape : ClassShape) : List String := shape.superName.toList ++ shape.interfaces

/-- The shape of a class file. Interfaces are kept as they are listed. -/
def ofClassFile (file : ClassFile) : ClassShape :=
  let bare := { new file.name file.superName with interfaces := file.interfaces }
  let withFields :=
    file.fields.foldl (fun shape f => shape.addField f.name (some f.descriptor)) bare
  file.methods.foldl (fun shape m => shape.addMethod ⟨m.name, m.descriptor⟩) withFields

end ClassShape

end Nomenclator
