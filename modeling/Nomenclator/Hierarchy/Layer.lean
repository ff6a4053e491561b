import Nomenclator.Hierarchy.Basic
import Nomenclator.Hierarchy.PlatformTable
import Nomenclator.Text.Cut

/-!
# Sources of classes

Two kinds of collections that hierarchies are made from: the classes of the
program at hand, and an index of platform classes whose names may be given with
dots instead of slashes.

Specification: `SPEC_FULL.md` §3, the variants of providers, and §4.1, the platform index.
-/

namespace Nomenclator

/-! ## The classes of a program -/

/-- Classes by name (the source-backed provider, §3). -/
structure SourceSet where
  classes : OrderedMap String ClassShape := ∅

namespace SourceSet

/-- The set with one more class, which replaces a class of the same name. -/
def insert (set : SourceSet) (shape : ClassShape) : SourceSet :=
  ⟨set.classes.insert shape.name shape⟩

/-- The set without the class of this name. -/
def erase (set : SourceSet) (name : String) : SourceSet := ⟨set.classes.erase name⟩

/-- The set holds a class of this name. -/
def contains (set : SourceSet) (name : String) : Bool := set.classes.contains name

/-- The number of classes. -/
def size (set : SourceSet) : Nat := set.classes.size

/-- The set of the listed classes; of several with one name the last. -/
def ofList (shapes : List ClassShape) : SourceSet := shapes.foldl insert {}

/-- The hierarchy of the classes. -/
def hierarchy (set : SourceSet) : Hierarchy := Hierarchy.ofMap set.classes

end SourceSet

/-! ## The classes of the platform -/

/-- The name with slashes for dots. -/
def internalName (name : String) : String := Text.replaceChar '.' '/' name

/-- The name with dots for slashes. -/
def dottedName (name : String) : String := Text.replaceChar '/' '.' name

/-- Platform classes by name, slashes separating its parts (`PlatformClassIndex`, §4.1). -/
structure PlatformIndex where
  classes : OrderedMap String ClassShape := ∅

namespace PlatformIndex

/-- The index with one more class, listed under its name with slashes (`insert`, §4.1). -/
def insert (index : PlatformIndex) (shape : ClassShape) : PlatformIndex :=
  let shape := { shape with name := internalName shape.name }
  ⟨index.classes.insert shape.name shape⟩

/-- The index of the classes that every program can count on (`new`, §4.1). -/
def standard : PlatformIndex := (Platform.entries.map Platform.Entry.shape).foldl insert {}

/-- The index lists the class, whichever way its name is written. -/
def contains (index : PlatformIndex) (name : String) : Bool :=
  index.classes.contains (internalName name)

/-- The number of classes. -/
def size (index : PlatformIndex) : Nat := index.classes.size

/-- The class of this name. A name with a slash is taken as it is. -/
def shape? (index : PlatformIndex) (name : String) : Option ClassShape :=
  if '/' ∈ name.toList then index.classes.find? name
  else index.classes.find? (internalName name)

theorem dottedName_internalName {name : String} (h : '/' ∉ name.toList) :
    dottedName (internalName name) = name := by
  have hmap : (name.toList.map fun c => if c = '.' then '/' else c).map
      (fun c => if c = '/' then '.' else c) = name.toList := by
    rw [List.map_map]
    refine (List.map_congr_left fun c hc => ?_).trans (List.map_id _)
    have hslash : c ≠ '/' := fun e => h (e ▸ hc)
    by_cases hdot : c = '.'
    · simp [hdot]
    · simp [hdot, hslash]
  rw [dottedName, internalName, Text.replaceChar, Text.replaceChar, String.toList_ofList, hmap,
    String.ofList_toList]

/-- The hierarchy of the listed classes, under both forms of their names. -/
def hierarchy (index : PlatformIndex) : Hierarchy where
  shape? := index.shape?
  known := index.classes.keys ++ index.classes.keys.map dottedName
  mem_known name h := by
    obtain ⟨shape, hshape⟩ := Option.isSome_iff_exists.mp h
    rw [shape?] at hshape
    split at hshape
    · exact List.mem_append_left _ (OrderedMap.mem_keys_of_find? hshape)
    · next hslash =>
      refine List.mem_append_right _ (List.mem_map.mpr ⟨internalName name, ?_, ?_⟩)
      · exact OrderedMap.mem_keys_of_find? hshape
      · exact dottedName_internalName hslash

end PlatformIndex

end Nomenclator
