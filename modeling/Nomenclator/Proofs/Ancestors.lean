import Nomenclator.Naming.Synthesis
import Nomenclator.Proofs.Walks

/-!
# Names of ancestors

Two searches go through the ancestors of a class: a run looks for the name that a
method takes from the one it overrides, and resolution looks for the name that a
reference means. The first goes through all parents and asks only known ones for a
name, the second goes through known parents only.

Results:
* `findInherited_eq_none_iff`, `exists_ancestor_of_findInherited`: the first finds a
  name exactly if a known ancestor other than the class itself has one.
* `resolveMethod_eq`: without cycles the second is plain recursion.
* `findInherited_eq_resolveMethod`: without cycles both find the same name, for a
  method that has none of its own.
-/

namespace Nomenclator

open Relation (TransGen)

namespace Hierarchy

/-- The hierarchy answers each class in the list with its own shape, and each name
    above one of them with a class of that name, if it knows one. -/
structure Describes (hierarchy : Hierarchy) (classes : List SourceClass) : Prop where
  shape_eq : ∀ source ∈ classes, hierarchy.shape? source.name = some source.shape
  name_eq : ∀ source ∈ classes, ∀ name shape,
    TransGen hierarchy.parentGraph.Edge source.name name → hierarchy.shape? name = some shape →
      shape.name = name

theorem Describes.mono {hierarchy : Hierarchy} {classes others : List SourceClass}
    (h : hierarchy.Describes classes) (hsub : ∀ source ∈ others, source ∈ classes) :
    hierarchy.Describes others where
  shape_eq source hsource := h.shape_eq source (hsub source hsource)
  name_eq source hsource := h.name_eq source (hsub source hsource)

/-- The class is a proper ancestor of another that the hierarchy knows. -/
structure KnownAncestor (hierarchy : Hierarchy) (name ancestor : String) : Prop where
  below : TransGen hierarchy.parentGraph.Edge name ancestor
  ne : ancestor ≠ name
  known : hierarchy.knows ancestor = true

end Hierarchy

namespace Progress

variable {hierarchy : Hierarchy} {classes : List SourceClass} {source : SourceClass}

/-- The name that the search for an overridden method finds at a class. -/
def nameAtKnown? (hierarchy : Hierarchy) (renames : Renames) (key : MethodKey)
    (name : String) : Option String :=
  if hierarchy.knows name then renames.methodName? name key else none

theorem findInherited_eq_walk (hdescribes : hierarchy.Describes classes)
    (hsource : source ∈ classes) (renames : Renames) (key : MethodKey) :
    findInherited hierarchy renames source key =
      hierarchy.parentGraph.walk (nameAtKnown? hierarchy renames key) [source.name]
        (hierarchy.parentGraph.next source.name) := by
  have hparents : source.shape.parents = hierarchy.parentGraph.next source.name := by
    show _ = hierarchy.parents source.name
    rw [Hierarchy.parents, hdescribes.shape_eq source hsource]
  unfold findInherited Hierarchy.findAncestor
  rw [hparents]
  apply Graph.walk_congr
  intro name hreaches
  have hbelow := ((Graph.reaches_next_iff _ _ _).mp hreaches).1
  unfold nameAtKnown? Hierarchy.knows
  cases hshape : hierarchy.shape? name with
  | none => rfl
  | some shape => simp [hdescribes.name_eq source hsource name shape hbelow hshape]

/-- No name is found exactly if no known ancestor has one. -/
theorem findInherited_eq_none_iff (hdescribes : hierarchy.Describes classes)
    (hsource : source ∈ classes) (renames : Renames) (key : MethodKey) :
    (findInherited hierarchy renames source key).found = none ↔
      ∀ ancestor, hierarchy.KnownAncestor source.name ancestor →
        renames.methodName? ancestor key = none := by
  rw [findInherited_eq_walk hdescribes hsource, Graph.walk_found_eq_none_iff]
  simp only [Graph.reaches_next_iff]
  constructor
  · intro h ancestor hancestor
    have hnone := h ancestor ⟨hancestor.below, hancestor.ne⟩
    rwa [nameAtKnown?, if_pos hancestor.known] at hnone
  · rintro h name ⟨hbelow, hne⟩
    unfold nameAtKnown?
    split_ifs with hknown
    · exact h name ⟨hbelow, hne, hknown⟩
    · rfl

/-- A name that is found is the name of a known ancestor. -/
theorem exists_ancestor_of_findInherited (hdescribes : hierarchy.Describes classes)
    (hsource : source ∈ classes) {renames : Renames} {key : MethodKey} {newName : String}
    (h : (findInherited hierarchy renames source key).found = some newName) :
    ∃ ancestor, hierarchy.KnownAncestor source.name ancestor ∧
      renames.methodName? ancestor key = some newName := by
  rw [findInherited_eq_walk hdescribes hsource] at h
  obtain ⟨name, hreaches, hname⟩ := Graph.exists_reaches_of_walk_found h
  obtain ⟨hbelow, hne⟩ := (Graph.reaches_next_iff _ _ _).mp hreaches
  unfold nameAtKnown? at hname
  split_ifs at hname with hknown
  exact ⟨name, ⟨hbelow, hne, hknown⟩, hname⟩

end Progress

/-! ## Hierarchies without cycles -/

namespace Hierarchy

variable {hierarchy : Hierarchy}

theorem knows_of_edge {a b : String} (h : hierarchy.parentGraph.Edge a b) :
    hierarchy.knows a = true := by
  change b ∈ hierarchy.parents a at h
  unfold parents at h
  unfold knows
  cases hshape : hierarchy.shape? a with
  | none => rw [hshape] at h; cases h
  | some shape => rfl

/-- All classes on a cycle are known, as each has a parent. -/
theorem acyclic_parentGraph (h : hierarchy.knownParentGraph.Acyclic) :
    hierarchy.parentGraph.Acyclic := by
  have hknown : ∀ {a b}, TransGen hierarchy.parentGraph.Edge a b → hierarchy.knows b = true →
      TransGen hierarchy.knownParentGraph.Edge a b := by
    intro a b hpath
    induction hpath with
    | single hedge => exact fun hb => .single (List.mem_filter.mpr ⟨hedge, hb⟩)
    | tail _ hedge ih =>
      exact fun hb => (ih (knows_of_edge hedge)).tail (List.mem_filter.mpr ⟨hedge, hb⟩)
  intro name hcycle
  obtain ⟨next, hedge, -⟩ := TransGen.head'_iff.mp hcycle
  exact h name (hknown hcycle (knows_of_edge hedge))

end Hierarchy

namespace Renames

variable {hierarchy : Hierarchy}

theorem resolveMethod_eq_lookup (hacyclic : hierarchy.knownParentGraph.Acyclic)
    (renames : Renames) (owner : String) (key : MethodKey) :
    renames.resolveMethod hierarchy owner key =
      hierarchy.knownParentGraph.lookup hacyclic
        (fun name => renames.methodName? name key) owner :=
  Graph.walk_found_eq_lookup hacyclic _ owner

/-- Without cycles resolution is plain recursion: the name in the class itself, or
    else the first that is found from one of its known parents. -/
theorem resolveMethod_eq (hacyclic : hierarchy.knownParentGraph.Acyclic) (renames : Renames)
    (owner : String) (key : MethodKey) :
    renames.resolveMethod hierarchy owner key =
      (renames.methodName? owner key).or
        ((hierarchy.knownParentGraph.next owner).findSome?
          fun parent => renames.resolveMethod hierarchy parent key) := by
  simp only [resolveMethod_eq_lookup hacyclic]
  exact Graph.lookup_eq hacyclic _ owner

/-- Whatever satisfies the equation of resolution is resolution. -/
theorem eq_resolveMethod (hacyclic : hierarchy.knownParentGraph.Acyclic) {renames : Renames}
    {key : MethodKey} {found : String → Option String}
    (hfound : ∀ name, found name = (renames.methodName? name key).or
      ((hierarchy.knownParentGraph.next name).findSome? found)) (owner : String) :
    found owner = renames.resolveMethod hierarchy owner key := by
  rw [resolveMethod_eq_lookup hacyclic]
  exact Graph.eq_lookup hacyclic hfound owner

theorem resolveMethod_of_methodName? (hacyclic : hierarchy.knownParentGraph.Acyclic)
    {renames : Renames} {owner : String} {key : MethodKey} {newName : String}
    (h : renames.methodName? owner key = some newName) :
    renames.resolveMethod hierarchy owner key = some newName := by
  rw [resolveMethod_eq hacyclic, h]
  rfl

end Renames

namespace Progress

variable {hierarchy : Hierarchy}

theorem findSome?_knows (found : String → Option String) (names : List String) :
    (names.findSome? fun name => if hierarchy.knows name then found name else none) =
      (names.filter hierarchy.knows).findSome? found := by
  induction names with
  | nil => rfl
  | cons name names ih =>
    rw [List.findSome?_cons, List.filter_cons, ih]
    split_ifs with hknown
    · rw [List.findSome?_cons]
    · rfl

/-- Without cycles a run finds for a method without a name what resolution finds for
    it. -/
theorem findInherited_eq_resolveMethod {classes : List SourceClass} {source : SourceClass}
    (hdescribes : hierarchy.Describes classes) (hsource : source ∈ classes)
    (hacyclic : hierarchy.knownParentGraph.Acyclic) {renames : Renames} {key : MethodKey}
    (hnone : renames.methodName? source.name key = none) :
    (findInherited hierarchy renames source key).found =
      renames.resolveMethod hierarchy source.name key := by
  -- What resolution finds at known classes satisfies the equation of the run's search.
  have hequation : ∀ name,
      (if hierarchy.knows name then renames.resolveMethod hierarchy name key else none) =
        (nameAtKnown? hierarchy renames key name).or
          ((hierarchy.parentGraph.next name).findSome? fun parent =>
            if hierarchy.knows parent then renames.resolveMethod hierarchy parent key
            else none) := by
    intro name
    rw [findSome?_knows, nameAtKnown?]
    split_ifs with hknown
    · exact Renames.resolveMethod_eq hacyclic renames name key
    · have hparents : hierarchy.parentGraph.next name = [] := by
        show hierarchy.parents name = []
        unfold Hierarchy.knows at hknown
        unfold Hierarchy.parents
        rw [Option.not_isSome_iff_eq_none.mp hknown]
      rw [hparents]
      rfl
  have hknown : hierarchy.knows source.name = true := by
    rw [Hierarchy.knows, hdescribes.shape_eq source hsource]
    rfl
  have horigin : nameAtKnown? hierarchy renames key source.name = none := by
    rw [nameAtKnown?, if_pos hknown, hnone]
  rw [findInherited_eq_walk hdescribes hsource,
    Graph.walk_next_found (Hierarchy.acyclic_parentGraph hacyclic) hequation horigin, if_pos hknown]

end Progress

end Nomenclator
