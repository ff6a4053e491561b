import Nomenclator.Proofs.BuiltHierarchy
import Nomenclator.Proofs.NameOrder

/-!
# Classes in another order

The same classes may be listed in another order, each with its fields and methods in another
order. The hierarchies that are built from both lists answer alike, except for fields, and so
every search among ancestors goes the same way.

Results:
* `Reordered`: the same classes and members in another order.
* `Reordered.forall₂_classesInOrder`: sorted, the classes of both lists stand side by side.
* `Reordered.alike_hierarchyOf`: the hierarchies of both lists answer alike.
* `Hierarchy.Alike.findAncestor_eq`: searches among ancestors go the same way.
-/

namespace Nomenclator

/-! ## Reordered classes -/

/-- What is known about a class is the same up to its fields. -/
def ClassShape.SameUpToFields (shape other : ClassShape) : Prop :=
  ∃ fields, other = { shape with fields := fields }

instance (shape other : ClassShape) : Decidable (shape.SameUpToFields other) :=
  decidable_of_iff (other = { shape with fields := other.fields })
    ⟨fun h => ⟨_, h⟩, by rintro ⟨fields, rfl⟩; rfl⟩

/-- The class with its fields and methods in another order. What its shape says about fields
    may change with it: of fields that share a name a shape holds the first. -/
structure SourceClass.Reorders (source other : SourceClass) : Prop where
  shape : source.shape.SameUpToFields other.shape
  fields : source.fields.Perm other.fields
  methods : source.methods.Perm other.methods
  staticInit : other.staticInit = source.staticInit

/-- The classes in another order, each with its members in another order. -/
def Reordered (classes others : List SourceClass) : Prop :=
  ∃ listed, classes.Perm listed ∧ List.Forall₂ SourceClass.Reorders listed others

theorem ClassShape.SameUpToFields.refl (shape : ClassShape) : shape.SameUpToFields shape :=
  ⟨shape.fields, rfl⟩

namespace SourceClass.Reorders

variable {source other : SourceClass}

theorem name (h : source.Reorders other) : other.name = source.name := by
  obtain ⟨fields, hshape⟩ := h.shape
  rw [SourceClass.name, hshape]
  rfl

theorem superName (h : source.Reorders other) : other.superName = source.superName := by
  obtain ⟨fields, hshape⟩ := h.shape
  rw [SourceClass.superName, hshape]
  rfl

end SourceClass.Reorders

theorem map_name_eq_of_forall₂ {listed others : List SourceClass}
    (h : List.Forall₂ SourceClass.Reorders listed others) :
    others.map SourceClass.name = listed.map SourceClass.name := by
  induction h with
  | nil => rfl
  | cons hreorders _ ih => rw [List.map_cons, List.map_cons, hreorders.name, ih]

theorem exists_reorders_of_forall₂ {listed others : List SourceClass}
    (h : List.Forall₂ SourceClass.Reorders listed others) {source : SourceClass}
    (hsource : source ∈ listed) : ∃ other ∈ others, source.Reorders other := by
  induction h with
  | nil => cases hsource
  | cons hreorders _ ih =>
    rcases List.mem_cons.mp hsource with rfl | hsource
    · exact ⟨_, List.mem_cons_self, hreorders⟩
    · obtain ⟨other, hother, hreorders⟩ := ih hsource
      exact ⟨other, List.mem_cons_of_mem _ hother, hreorders⟩

namespace Reordered

variable {classes others : List SourceClass}

theorem map_name_perm (h : Reordered classes others) :
    (classes.map SourceClass.name).Perm (others.map SourceClass.name) := by
  obtain ⟨listed, hperm, hlisted⟩ := h
  rw [map_name_eq_of_forall₂ hlisted]
  exact hperm.map _

/-- Every class is in the other list, with its members in another order. -/
theorem exists_reorders (h : Reordered classes others) {source : SourceClass}
    (hsource : source ∈ classes) : ∃ other ∈ others, source.Reorders other := by
  obtain ⟨listed, hperm, hlisted⟩ := h
  exact exists_reorders_of_forall₂ hlisted (hperm.mem_iff.mp hsource)

/-- Sorted, the classes of both lists stand side by side. -/
theorem forall₂_classesInOrder (h : Reordered classes others)
    (hnames : (classes.map SourceClass.name).Nodup) (conventions : Conventions)
    (settings : Settings) :
    List.Forall₂ SourceClass.Reorders (Progress.classesInOrder conventions settings classes)
      (Progress.classesInOrder conventions settings others) := by
  obtain ⟨listed, hperm, hlisted⟩ := h
  rw [Progress.classesInOrder_eq_of_perm conventions settings hperm hnames]
  exact Progress.forall₂_classesInOrder conventions settings (fun _ _ h => h.name) hlisted

end Reordered

/-! ## Hierarchies that answer alike -/

/-- Walks over graphs with the same successors are the same. -/
theorem Graph.walk_eq_of_next_eq {α : Type} {graph other : Graph}
    (hnext : other.next = graph.next) (test : String → Option α)
    (visited pending : List String) :
    other.walk test visited pending = graph.walk test visited pending := by
  fun_induction graph.walk test visited pending with
  | case1 visited => rw [walk]
  | case2 visited name pending hvisited ih => rw [walk, if_pos hvisited, ih]
  | case3 visited name pending hfresh a htest =>
    rw [walk, if_neg hfresh, htest]
  | case4 visited name pending hfresh htest ih =>
    rw [walk, if_neg hfresh, htest, hnext, ih]

/-- The hierarchies know the same classes and say the same about each, except about its
    fields. -/
def Hierarchy.Alike (hierarchy other : Hierarchy) : Prop :=
  ∀ name, Option.Rel ClassShape.SameUpToFields (hierarchy.shape? name) (other.shape? name)

namespace Hierarchy.Alike

variable {hierarchy other : Hierarchy}

theorem parents_eq (h : hierarchy.Alike other) : other.parents = hierarchy.parents := by
  funext name
  have hname := h name
  rw [parents, parents]
  generalize hierarchy.shape? name = found, other.shape? name = found' at hname
  cases hname with
  | none => rfl
  | some hshape =>
    obtain ⟨fields, rfl⟩ := hshape
    rfl

/-- A search among ancestors goes the same way if what it looks for has nothing to do with
    fields. -/
theorem findAncestor_eq {α : Type} (h : hierarchy.Alike other) {shape shape' : ClassShape}
    (hshape : shape.SameUpToFields shape') {f : ClassShape → Option α}
    (hf : ∀ a b : ClassShape, a.SameUpToFields b → f b = f a) :
    other.findAncestor shape' f = hierarchy.findAncestor shape f := by
  obtain ⟨fields, rfl⟩ := hshape
  have htest : (fun name => (other.shape? name).bind f) =
      fun name => (hierarchy.shape? name).bind f := by
    funext name
    have hname := h name
    generalize hierarchy.shape? name = found, other.shape? name = found' at hname
    cases hname with
    | none => rfl
    | some hshape => exact hf _ _ hshape
  rw [findAncestor, findAncestor, htest]
  exact Graph.walk_eq_of_next_eq h.parents_eq _ _ _

theorem findDeclaring_eq (h : hierarchy.Alike other) {shape shape' : ClassShape}
    (hshape : shape.SameUpToFields shape') (key : MethodKey) :
    other.findDeclaring shape' key = hierarchy.findDeclaring shape key := by
  refine h.findAncestor_eq hshape ?_
  rintro a _ ⟨fields, rfl⟩
  rfl

end Hierarchy.Alike

/-- The hierarchies of both lists answer alike. -/
theorem Reordered.alike_hierarchyOf {classes others : List SourceClass}
    (h : Reordered classes others) (hnames : (classes.map SourceClass.name).Nodup) :
    (hierarchyOf classes).Alike (hierarchyOf others) := by
  intro name
  by_cases hname : name ∈ classes.map SourceClass.name
  · obtain ⟨source, hsource, rfl⟩ := List.mem_map.mp hname
    obtain ⟨other, hother, hreorders⟩ := h.exists_reorders hsource
    have hfound := hierarchyOf_shape?_of_mem (h.map_name_perm.nodup_iff.mp hnames) hother
    rw [hreorders.name] at hfound
    rw [hierarchyOf_shape?_of_mem hnames hsource, hfound]
    exact .some hreorders.shape
  · rw [hierarchyOf_shape?_of_not_mem hname,
      hierarchyOf_shape?_of_not_mem (h.map_name_perm.mem_iff.not.mp hname)]
    cases PlatformIndex.standard.shape? name with
    | none => exact .none
    | some shape => exact .some (.refl shape)

end Nomenclator
