import Nomenclator.Proofs.Inquiries
import Nomenclator.Proofs.Walks

/-!
# Walks over the parents of classes end and miss nothing

The hierarchy may have cycles: a class may be its own parent, and two classes may be above each
other. Walks still end, because they look at no class twice, and they find something exactly if
there is something to find.

Results:
* `Graph.nodup_examined`, `Graph.reaches_of_mem_examined`: a walk looks at names within its reach
  only, and at none of them twice.
* `Renames.isSome_resolveMethod_iff`, `Renames.exists_of_resolveMethod_eq_some`: a reference to a
  method finds a name exactly if a class at or above its owner has one.
* `Hierarchy.inherits_eq_true_iff`: a method is inherited exactly if a known class above declares
  it.
* `methodWalks_complete`: these, and how many classes the two walks look at.
-/

namespace Nomenclator

open Relation (ReflTransGen)

/-! ## What a walk looks at -/

namespace Graph

variable {α : Type} {graph : Graph} {test : String → Option α} {visited pending : List String}

theorem Reaches.not_mem_visited {name : String} (h : graph.Reaches visited pending name) :
    name ∉ visited := by
  cases h with
  | start _ hfresh => exact hfresh
  | step _ _ hfresh => exact hfresh

/-- What is within reach is pending or follows an inner name. -/
theorem Reaches.mem_append {name : String} (h : graph.Reaches visited pending name) :
    name ∈ pending ++ graph.inner.flatMap graph.next := by
  cases h with
  | start hmem _ => exact List.mem_append_left _ hmem
  | @step a _ _ hnext _ =>
    have hinner : a ∈ graph.inner := by
      by_contra hnot
      rw [graph.next_eq_nil a hnot] at hnext
      exact List.not_mem_nil hnext
    exact List.mem_append_right _ (List.mem_flatMap.mpr ⟨a, hinner, hnext⟩)

/-- From a single name exactly the names at or below it are within reach. -/
theorem reaches_singleton_iff (graph : Graph) (origin name : String) :
    graph.Reaches [] [origin] name ↔ ReflTransGen graph.Edge origin name := by
  constructor
  · intro h
    induction h with
    | start hmem _ => rw [List.mem_singleton.mp hmem]
    | step _ hnext _ ih => exact ih.tail hnext
  · intro h
    induction h with
    | refl => exact .start List.mem_cons_self List.not_mem_nil
    | tail _ hedge ih => exact .step ih hedge List.not_mem_nil

/-- A walk looks at nothing that is not within its reach. -/
theorem reaches_of_mem_examined {name : String}
    (h : name ∈ (graph.walk test visited pending).examined) :
    graph.Reaches visited pending name := by
  fun_induction graph.walk test visited pending with
  | case1 visited => cases h
  | case2 visited head pending hvisited ih => exact (reaches_cons_visited hvisited name).mpr (ih h)
  | case3 visited head pending hfresh a htest =>
    rw [List.mem_singleton.mp h]
    exact .start List.mem_cons_self hfresh
  | case4 visited head pending hfresh htest ih =>
    rw [reaches_cons_fresh hfresh]
    exact (List.mem_cons.mp h).imp_right ih

/-- A walk looks at no name twice. -/
theorem nodup_examined (graph : Graph) (test : String → Option α) (visited pending : List String) :
    (graph.walk test visited pending).examined.Nodup := by
  fun_induction graph.walk test visited pending with
  | case1 visited => exact List.nodup_nil
  | case2 visited name pending hvisited ih => exact ih
  | case3 visited name pending hfresh a htest => exact List.nodup_singleton name
  | case4 visited name pending hfresh htest ih =>
    refine List.nodup_cons.mpr ⟨fun hagain => ?_, ih⟩
    exact (reaches_of_mem_examined hagain).not_mem_visited List.mem_cons_self

/-- A walk looks at no more names than there are within its reach. -/
theorem length_examined_le {names : List String}
    (h : ∀ name, graph.Reaches visited pending name → name ∈ names) :
    (graph.walk test visited pending).examined.length ≤ names.length := by
  have hsub : (graph.walk test visited pending).examined ⊆ names :=
    fun name hname => h name (reaches_of_mem_examined hname)
  exact ((nodup_examined graph test visited pending).subperm hsub).length_le

end Graph

/-! ## How long walks take -/

namespace Program

open Inquiry (Follows)

variable {α β : Type} {layer : Layer} {limit : Nat}

/-- The program has the result whenever its walks may look at more than `limit` classes. -/
def EndsWithin (program : Program α) (layer : Layer) (limit : Nat) (a : α) : Prop :=
  ∀ bound > limit, (program.run bound).answered layer = some a

theorem EndsWithin.map {program : Program α} {a : α} (h : program.EndsWithin layer limit a)
    (f : α → β) : EndsWithin (program >>= fun x => pure (f x)) layer limit (f a) := by
  intro bound hbound
  rw [ReaderT.run_bind, Inquiry.answered_bind, h bound hbound]
  rfl

theorem search_endsWithin {look : String → Inquiry (α ⊕ List String)} {graph : Graph}
    {test : String → Option α} (hlook : Follows look layer graph test)
    {visited pending names : List String}
    (hnames : ∀ name, graph.Reaches visited pending name → name ∈ names) :
    (search look visited pending).EndsWithin layer names.length
      (graph.walk test visited pending) := fun _ hbound =>
  Inquiry.search_answered_of_lt hlook (Nat.lt_of_le_of_lt (Graph.length_examined_le hnames) hbound)

/-- Whether an ancestor of a class declares a method. -/
def inherits (shape : ClassShape) (key : MethodKey) : Program Bool := do
  let walk ← findDeclaring shape key
  return walk.found.isSome

end Program

/-! ## Classes within reach -/

namespace Hierarchy

variable {hierarchy : Hierarchy}

/-- A step from a class to one of its parents that the hierarchy knows. -/
def KnownParent (hierarchy : Hierarchy) (name parent : String) : Prop :=
  ∃ shape, hierarchy.shape? name = some shape ∧ parent ∈ shape.parents ∧
    hierarchy.knows parent = true

/-- The class is reached from a shape by one or more steps to parents that do not lead back to
    the name of the shape. The first step is to a parent that the shape itself lists. -/
inductive Above (hierarchy : Hierarchy) (shape : ClassShape) : String → Prop where
  | parent {name : String} : name ∈ shape.parents → name ≠ shape.name → Above hierarchy shape name
  | step {name next : String} {between : ClassShape} : Above hierarchy shape name →
    hierarchy.shape? name = some between → next ∈ between.parents → next ≠ shape.name →
    Above hierarchy shape next

theorem mem_parents_iff {name parent : String} :
    parent ∈ hierarchy.parents name ↔
      ∃ shape, hierarchy.shape? name = some shape ∧ parent ∈ shape.parents := by
  unfold parents
  cases hierarchy.shape? name with
  | none => simp
  | some shape => simp

theorem knownParentGraph_edge : hierarchy.knownParentGraph.Edge = hierarchy.KnownParent := by
  funext name parent
  simp only [Graph.Edge, knownParentGraph, KnownParent, List.mem_filter, mem_parents_iff,
    ← exists_and_right, and_assoc]

theorem reaches_parents_iff (hierarchy : Hierarchy) (shape : ClassShape) (name : String) :
    hierarchy.parentGraph.Reaches [shape.name] shape.parents name ↔
      hierarchy.Above shape name := by
  constructor
  · intro h
    induction h with
    | start hmem hfresh => exact .parent hmem (by simpa using hfresh)
    | step _ hnext hfresh ih =>
      obtain ⟨between, hbetween, hparent⟩ := mem_parents_iff.mp hnext
      exact .step ih hbetween hparent (by simpa using hfresh)
  · intro h
    induction h with
    | parent hmem hne => exact .start hmem (by simpa using hne)
    | step _ hbetween hparent hne ih =>
      exact .step ih (mem_parents_iff.mpr ⟨_, hbetween, hparent⟩) (by simpa using hne)

/-- Where steps lead to known classes only, these and the class from which the walk starts are all
    that is within its reach. -/
theorem mem_cons_known {graph : Graph}
    (hedges : ∀ name next, graph.Edge name next → hierarchy.knows next = true) {owner name : String}
    (h : graph.Reaches [] [owner] name) : name ∈ owner :: hierarchy.known := by
  cases h with
  | start hmem _ => exact List.mem_cons.mpr (Or.inl (List.mem_singleton.mp hmem))
  | step _ hnext _ => exact List.mem_cons_of_mem _ (hierarchy.mem_known name (hedges _ name hnext))

end Hierarchy

namespace Program

theorem search_endsWithin_known {α : Type} {hierarchy : Hierarchy} {graph : Graph}
    {look : String → Inquiry (α ⊕ List String)} {test : String → Option α}
    (hlook : Inquiry.Follows look hierarchy.shape? graph test)
    (hedges : ∀ name next, graph.Edge name next → hierarchy.knows next = true) (owner : String) :
    (search look [] [owner]).EndsWithin hierarchy.shape? (hierarchy.known.length + 1)
      (graph.walk test [] [owner]) :=
  search_endsWithin hlook fun _ => Hierarchy.mem_cons_known hedges

theorem resolveMethod_endsWithin (hierarchy : Hierarchy) (renames : Renames) (owner : String)
    (key : MethodKey) :
    (resolveMethod renames owner key).EndsWithin hierarchy.shape? (hierarchy.known.length + 1)
      (renames.resolveMethod hierarchy owner key) := by
  have hends := search_endsWithin_known
    (Inquiry.lookForName_follows_parents hierarchy fun current => renames.methodName? current key)
    (fun _ _ hedge => (List.mem_filter.mp hedge).2) owner
  exact hends.map Walk.found

theorem inherits_endsWithin (hierarchy : Hierarchy) (shape : ClassShape) (key : MethodKey) :
    (inherits shape key).EndsWithin hierarchy.shape?
      (shape.parents.length + (hierarchy.known.flatMap hierarchy.parents).length)
      (hierarchy.inherits shape key) := by
  have hends : (findDeclaring shape key).EndsWithin hierarchy.shape?
      (shape.parents ++ hierarchy.known.flatMap hierarchy.parents).length
        (hierarchy.findDeclaring shape key) :=
    search_endsWithin (Inquiry.lookForAncestor_follows hierarchy _)
      fun _ => Graph.Reaches.mem_append
  rw [List.length_append] at hends
  exact hends.map fun walk => walk.found.isSome

end Program

/-! ## Inherited methods -/

namespace Hierarchy

/-- A method is inherited exactly if a known class above the class declares it. -/
theorem inherits_eq_true_iff (hierarchy : Hierarchy) (shape : ClassShape) (key : MethodKey) :
    hierarchy.inherits shape key = true ↔
      ∃ name ancestor, hierarchy.Above shape name ∧ hierarchy.shape? name = some ancestor ∧
        ancestor.declares key = true := by
  unfold inherits findDeclaring findAncestor
  constructor
  · intro h
    obtain ⟨found, hfound⟩ := Option.isSome_iff_exists.mp h
    obtain ⟨name, hreaches, htest⟩ := Graph.exists_reaches_of_walk_found hfound
    obtain ⟨ancestor, hshape, hdeclares⟩ := Option.bind_eq_some_iff.mp htest
    split_ifs at hdeclares with hkey
    exact ⟨name, ancestor, (hierarchy.reaches_parents_iff shape name).mp hreaches, hshape, hkey⟩
  · rintro ⟨name, ancestor, habove, hshape, hdeclares⟩
    rw [Option.isSome_iff_ne_none]
    intro hnone
    have htest := (Graph.walk_found_eq_none_iff _ _ _ _).mp hnone name
      ((hierarchy.reaches_parents_iff shape name).mpr habove)
    simp [hshape, hdeclares] at htest

end Hierarchy

/-! ## References to methods -/

namespace Renames

variable {hierarchy : Hierarchy} {renames : Renames} {owner : String} {key : MethodKey}

/-- A name that is found for a method is one that it has in a class at or above the owner. -/
theorem exists_of_resolveMethod_eq_some {newName : String}
    (h : renames.resolveMethod hierarchy owner key = some newName) :
    ∃ name, ReflTransGen hierarchy.KnownParent owner name ∧
      renames.methodName? name key = some newName := by
  obtain ⟨name, hreaches, hname⟩ := Graph.exists_reaches_of_walk_found h
  rw [Graph.reaches_singleton_iff, Hierarchy.knownParentGraph_edge] at hreaches
  exact ⟨name, hreaches, hname⟩

/-- A name is found for a method exactly if it has one in a class at or above the owner. -/
theorem isSome_resolveMethod_iff :
    (renames.resolveMethod hierarchy owner key).isSome ↔
      ∃ name, ReflTransGen hierarchy.KnownParent owner name ∧
        (renames.methodName? name key).isSome := by
  constructor
  · intro h
    obtain ⟨newName, hfound⟩ := Option.isSome_iff_exists.mp h
    obtain ⟨name, hreaches, hname⟩ := exists_of_resolveMethod_eq_some hfound
    exact ⟨name, hreaches, Option.isSome_of_eq_some hname⟩
  · rintro ⟨name, hreaches, hname⟩
    rw [← Hierarchy.knownParentGraph_edge, ← Graph.reaches_singleton_iff] at hreaches
    rw [Option.isSome_iff_ne_none]
    intro hnone
    rw [(Graph.walk_found_eq_none_iff _ _ _ _).mp hnone name hreaches] at hname
    cases hname

end Renames

/-- On every hierarchy, cyclic or not, resolution of a method ends and looks at no class twice
    and at no more than the owner and the known classes. It finds a name exactly if a class that
    is reached from the owner by steps to known parents has one, and the name is that of such a
    class. The search of a naming run for a declaration above a class ends too, after as many
    classes at most as there are parents, and finds one exactly if a known class declares the
    method that is reached without coming back to the class. -/
theorem methodWalks_complete (hierarchy : Hierarchy) (renames : Renames) (key : MethodKey) :
    (∀ owner,
      (Program.resolveMethod renames owner key).EndsWithin hierarchy.shape?
        (hierarchy.known.length + 1) (renames.resolveMethod hierarchy owner key) ∧
      (Resolution.methodWalk renames hierarchy owner key).examined.Nodup ∧
      ((renames.resolveMethod hierarchy owner key).isSome ↔
        ∃ name, ReflTransGen hierarchy.KnownParent owner name ∧
          (renames.methodName? name key).isSome) ∧
      ∀ newName, renames.resolveMethod hierarchy owner key = some newName →
        ∃ name, ReflTransGen hierarchy.KnownParent owner name ∧
          renames.methodName? name key = some newName) ∧
    ∀ shape,
      (Program.inherits shape key).EndsWithin hierarchy.shape?
        (shape.parents.length + (hierarchy.known.flatMap hierarchy.parents).length)
        (hierarchy.inherits shape key) ∧
      (hierarchy.findDeclaring shape key).examined.Nodup ∧
      (hierarchy.inherits shape key = true ↔
        ∃ name ancestor, hierarchy.Above shape name ∧ hierarchy.shape? name = some ancestor ∧
          ancestor.declares key = true) := by
  refine ⟨fun owner => ⟨?_, ?_, ?_, ?_⟩, fun shape => ⟨?_, ?_, ?_⟩⟩
  · exact Program.resolveMethod_endsWithin hierarchy renames owner key
  · exact Graph.nodup_examined _ _ _ _
  · exact Renames.isSome_resolveMethod_iff
  · exact fun newName => Renames.exists_of_resolveMethod_eq_some
  · exact Program.inherits_endsWithin hierarchy shape key
  · exact Graph.nodup_examined _ _ _ _
  · exact hierarchy.inherits_eq_true_iff shape key

end Nomenclator
