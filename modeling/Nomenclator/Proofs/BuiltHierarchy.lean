import Nomenclator.Proofs.Ancestors
import Nomenclator.Proofs.PlatformQueries

/-!
# The hierarchy of the classes themselves and the platform

The platform answers names that are written with dots too, with a class whose own
name has slashes. This does no harm as long as no class names a parent with dots.

Results:
* `hierarchyOf_shape?_of_mem`, `hierarchyOf_shape?_of_not_mem`: classes of different names
  are answered with themselves, all other names by the platform.
* `hierarchyOf_name`: a name without dots is answered with a class of that name.
* `describes_hierarchyOf`: the hierarchy describes classes of different names whose
  parents are named without dots.
-/

namespace Nomenclator

open Relation (TransGen)

namespace SourceSet

theorem find?_foldl_insert {shapes : List ClassShape} {set : SourceSet} {name : String}
    {shape : ClassShape} (h : (shapes.foldl insert set).classes.find? name = some shape) :
    (shape ∈ shapes ∧ shape.name = name) ∨ set.classes.find? name = some shape := by
  induction shapes generalizing set with
  | nil => exact Or.inr h
  | cons head shapes ih =>
    rcases ih h with ⟨hmem, hname⟩ | hset
    · exact Or.inl ⟨List.mem_cons_of_mem _ hmem, hname⟩
    · by_cases hhead : name = head.name
      · rw [hhead, insert, OrderedMap.insert, OrderedMap.find?_update_self] at hset
        cases hset
        exact Or.inl ⟨List.mem_cons_self, hhead.symm⟩
      · rw [insert, OrderedMap.insert, OrderedMap.find?_update_of_ne _ hhead] at hset
        exact Or.inr hset

theorem find?_foldl_insert_of_not_mem {shapes : List ClassShape} {name : String}
    (h : name ∉ shapes.map (·.name)) (set : SourceSet) :
    (shapes.foldl insert set).classes.find? name = set.classes.find? name := by
  induction shapes generalizing set with
  | nil => rfl
  | cons head shapes ih =>
    rw [List.map_cons, List.mem_cons, not_or] at h
    rw [List.foldl_cons, ih h.2, insert, OrderedMap.insert, OrderedMap.find?_update_of_ne _ h.1]

theorem find?_foldl_insert_of_mem {shapes : List ClassShape}
    (hnames : (shapes.map (·.name)).Nodup) {shape : ClassShape} (hmem : shape ∈ shapes)
    (set : SourceSet) :
    (shapes.foldl insert set).classes.find? shape.name = some shape := by
  induction shapes generalizing set with
  | nil => cases hmem
  | cons head shapes ih =>
    obtain ⟨hhead, hrest⟩ := List.nodup_cons.mp hnames
    rcases List.mem_cons.mp hmem with rfl | hmem
    · rw [List.foldl_cons, find?_foldl_insert_of_not_mem hhead, insert, OrderedMap.insert,
        OrderedMap.find?_update_self]
    · exact ih hrest hmem _

end SourceSet

namespace PlatformIndex

/-- What the platform answers. -/
theorem standard_shape? {name : String} {shape : ClassShape}
    (h : standard.shape? name = some shape) :
    ('.' ∉ name.toList → shape.name = name) ∧
      ∃ entry ∈ Platform.entries, shape.parents = entry.shape.parents := by
  obtain ⟨-, listed, hlast, rfl⟩ := (Reached.standard.lists.shape?_eq_some_iff name).mp h
  obtain ⟨entry, hentry, rfl⟩ := List.mem_map.mp hlast.mem
  exact ⟨internalName_of_no_dot, entry, hentry, rfl⟩

end PlatformIndex

/-- The platform names all parents without dots. -/
theorem Platform.parents_no_dot :
    ∀ entry ∈ Platform.entries, ∀ parent ∈ entry.shape.parents, '.' ∉ parent.toList := by
  decide +kernel

section BuiltHierarchy

variable {classes : List SourceClass}

/-- An answer comes from the list or from the platform. -/
theorem hierarchyOf_cases {name : String} {shape : ClassShape}
    (h : (hierarchyOf classes).shape? name = some shape) :
    (∃ source ∈ classes, source.shape = shape ∧ source.name = name) ∨
      PlatformIndex.standard.shape? name = some shape := by
  obtain ⟨layer, hlayer, hfound⟩ := List.exists_of_findSome?_eq_some h
  rcases List.mem_cons.mp hlayer with rfl | hlayer
  · rcases SourceSet.find?_foldl_insert hfound with ⟨hmem, hname⟩ | hempty
    · obtain ⟨source, hsource, rfl⟩ := List.mem_map.mp hmem
      exact Or.inl ⟨source, hsource, rfl, hname⟩
    · cases hempty
  · rw [List.mem_singleton.mp hlayer] at hfound
    exact Or.inr hfound

theorem hierarchyOf_name {name : String} {shape : ClassShape} (hdots : '.' ∉ name.toList)
    (h : (hierarchyOf classes).shape? name = some shape) : shape.name = name := by
  rcases hierarchyOf_cases h with ⟨source, -, rfl, hname⟩ | hplatform
  · exact hname
  · exact (PlatformIndex.standard_shape? hplatform).1 hdots

/-- Of classes with different names each is answered with itself. -/
theorem hierarchyOf_shape?_of_mem (hnames : (classes.map (·.name)).Nodup) {source : SourceClass}
    (hsource : source ∈ classes) :
    (hierarchyOf classes).shape? source.name = some source.shape := by
  have hfind : (SourceSet.ofList (classes.map (·.shape))).hierarchy.shape? source.name =
      some source.shape := by
    refine SourceSet.find?_foldl_insert_of_mem ?_ (List.mem_map_of_mem hsource) {}
    rw [List.map_map]
    exact hnames
  show Hierarchy.firstShape? _ source.name = _
  rw [Hierarchy.firstShape?, List.findSome?_cons, hfind]

/-- A name that no class has is answered by the platform. -/
theorem hierarchyOf_shape?_of_not_mem {name : String} (hname : name ∉ classes.map (·.name)) :
    (hierarchyOf classes).shape? name = PlatformIndex.standard.shape? name := by
  have hfind : (SourceSet.ofList (classes.map (·.shape))).hierarchy.shape? name = none := by
    refine SourceSet.find?_foldl_insert_of_not_mem ?_ {}
    rw [List.map_map]
    exact hname
  show Hierarchy.firstShape? _ name = _
  rw [Hierarchy.firstShape?, List.findSome?_cons, hfind, List.findSome?_singleton]
  rfl

/-- The hierarchy that a run builds describes classes of different names whose parents
    are named without dots. -/
theorem describes_hierarchyOf (hnames : (classes.map (·.name)).Nodup)
    (hparents : ∀ source ∈ classes, ∀ parent ∈ source.shape.parents, '.' ∉ parent.toList) :
    (hierarchyOf classes).Describes classes where
  shape_eq source hsource := hierarchyOf_shape?_of_mem hnames hsource
  name_eq source _ name shape hbelow hshape := by
    obtain ⟨child, -, hedge⟩ := TransGen.tail'_iff.mp hbelow
    refine hierarchyOf_name ?_ hshape
    change name ∈ (hierarchyOf classes).parents child at hedge
    unfold Hierarchy.parents at hedge
    split at hedge
    · next childShape hchild =>
      rcases hierarchyOf_cases hchild with ⟨listed, hlisted, rfl, -⟩ | hplatform
      · exact hparents listed hlisted name hedge
      · obtain ⟨entry, hentry, heq⟩ := (PlatformIndex.standard_shape? hplatform).2
        rw [heq] at hedge
        exact Platform.parents_no_dot entry hentry name hedge
    · cases hedge

end BuiltHierarchy

end Nomenclator
