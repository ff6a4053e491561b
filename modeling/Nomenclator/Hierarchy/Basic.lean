import Nomenclator.Graph
import Nomenclator.Hierarchy.ClassShape

/-!
# Class hierarchies

A hierarchy answers what is known about a class. It knows finitely many names;
a class that it does not know ends the ancestry of the classes below it, which
is no error.

Several hierarchies in a row form one: the first that knows a class answers for
it entirely.

Specification: `SPEC_FULL.md` §4.1; the search for declaring ancestors is that of §4.3.
-/

namespace Nomenclator

open Std (TransOrd LawfulEqOrd)

/-- The shapes of finitely many classes by name (`ClassGraphProvider`, §3; `shape?` is
    `provide`, §4.1). -/
structure Hierarchy where
  shape? : String → Option ClassShape
  known : List String
  mem_known : ∀ name, (shape? name).isSome → name ∈ known

namespace Hierarchy

/-- The class is known. -/
def knows (hierarchy : Hierarchy) (name : String) : Bool := (hierarchy.shape? name).isSome

/-- The parents of a class, none if it is not known. -/
def parents (hierarchy : Hierarchy) (name : String) : List String :=
  match hierarchy.shape? name with
  | some shape => shape.parents
  | none => []

/-- The superclass of a class as a list of at most one name. -/
def superNames (hierarchy : Hierarchy) (name : String) : List String :=
  match hierarchy.shape? name with
  | some shape => shape.superName.toList
  | none => []

theorem shape?_eq_none (hierarchy : Hierarchy) {name : String} (h : name ∉ hierarchy.known) :
    hierarchy.shape? name = none := by
  cases hs : hierarchy.shape? name with
  | none => rfl
  | some shape => exact absurd (hierarchy.mem_known name (by rw [hs]; rfl)) h

theorem parents_eq_nil (hierarchy : Hierarchy) {name : String} (h : name ∉ hierarchy.known) :
    hierarchy.parents name = [] := by
  rw [parents, hierarchy.shape?_eq_none h]

theorem superNames_eq_nil (hierarchy : Hierarchy) {name : String} (h : name ∉ hierarchy.known) :
    hierarchy.superNames name = [] := by
  rw [superNames, hierarchy.shape?_eq_none h]

/-! ## Graphs of a hierarchy -/

/-- From each class to its parents, known or not. -/
def parentGraph (hierarchy : Hierarchy) : Graph where
  next := hierarchy.parents
  inner := hierarchy.known
  next_eq_nil _ h := hierarchy.parents_eq_nil h

/-- From each class to those of its parents that are known. -/
def knownParentGraph (hierarchy : Hierarchy) : Graph where
  next name := (hierarchy.parents name).filter hierarchy.knows
  inner := hierarchy.known
  next_eq_nil _ h := by rw [hierarchy.parents_eq_nil h]; rfl

/-- From each class to its superclass, if that is known. -/
def knownSuperGraph (hierarchy : Hierarchy) : Graph where
  next name := (hierarchy.superNames name).filter hierarchy.knows
  inner := hierarchy.known
  next_eq_nil _ h := by rw [hierarchy.superNames_eq_nil h]; rfl

/-! ## Hierarchies from classes -/

/-- The hierarchy without classes. -/
def empty : Hierarchy where
  shape? _ := none
  known := []
  mem_known _ h := by cases h

/-- The hierarchy of the classes in a map, under their keys. -/
def ofMap (classes : OrderedMap String ClassShape) : Hierarchy where
  shape? := classes.find?
  known := classes.keys
  mem_known name h := by
    cases hs : classes.find? name with
    | none => rw [hs] at h; cases h
    | some shape => exact OrderedMap.mem_keys_of_find? hs

/-- What the first layer that knows the class says about it. -/
def firstShape? (layers : List Hierarchy) (name : String) : Option ClassShape :=
  layers.findSome? (·.shape? name)

/-- The layers as one hierarchy: the first that knows a class answers (the cascading
    provider, §4.1). -/
def cascade (layers : List Hierarchy) : Hierarchy where
  shape? := firstShape? layers
  known := layers.flatMap (·.known)
  mem_known name h := by
    obtain ⟨shape, hshape⟩ := Option.isSome_iff_exists.mp h
    obtain ⟨layer, hlayer, hfound⟩ := List.exists_of_findSome?_eq_some hshape
    exact List.mem_flatMap.mpr ⟨layer, hlayer, layer.mem_known name (by rw [hfound]; rfl)⟩

/-! ## Ancestors -/

/-- The first ancestor of a class at which `f` finds something, depth first,
    superclass before interfaces. The class itself is never looked at. -/
def findAncestor {α : Type} (hierarchy : Hierarchy) (shape : ClassShape)
    (f : ClassShape → Option α) : Walk α :=
  hierarchy.parentGraph.walk (fun name => (hierarchy.shape? name).bind f) [shape.name]
    shape.parents

/-- The search for an ancestor that declares a method with the same name and
    descriptor ("inherited from parent", §4.3). -/
def findDeclaring (hierarchy : Hierarchy) (shape : ClassShape) (key : MethodKey) : Walk Unit :=
  hierarchy.findAncestor shape fun ancestor => if ancestor.declares key then some () else none

/-- Some ancestor of the class declares the method. -/
def inherits (hierarchy : Hierarchy) (shape : ClassShape) (key : MethodKey) : Bool :=
  (hierarchy.findDeclaring shape key).found.isSome

end Hierarchy

end Nomenclator
