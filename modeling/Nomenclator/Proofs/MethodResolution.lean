import Nomenclator.Proofs.Ancestors

/-!
# Resolution of methods is plain recursion

Resolution goes through the ancestors of a class with a stack of pending classes and
a set of visited ones, and passes over a class that it meets again. The definition
that one would write down first has neither: the name in the class itself, or else the
first that the same search finds at a known parent. Without cycles the two agree, also
where lines of ancestry meet.

Results:
* `recursiveMethod`: the plain recursion.
* `resolveMethod_eq_recursiveMethod`: resolution finds what the recursion finds.
-/

namespace Nomenclator

/-- A graph has no cycles if all its steps lead down in some ranking. -/
theorem Graph.acyclic_of_rank {graph : Graph} (rank : String → Nat)
    (h : ∀ a b, graph.Edge a b → rank b < rank a) : graph.Acyclic := by
  have hbelow : ∀ {a b}, Relation.TransGen graph.Edge a b → rank b < rank a := by
    intro a b hpath
    induction hpath with
    | single hedge => exact h _ _ hedge
    | tail _ hedge ih => exact (h _ _ hedge).trans ih
  exact fun name hcycle => (hbelow hcycle).false

namespace Renames

variable {hierarchy : Hierarchy}

/-- The new name of a method by plain recursion: the name in the class itself, or else,
    if the hierarchy knows the class, the first that is found at its superclass or one of
    its interfaces, as far as these are known. -/
def recursiveMethod (renames : Renames) (hacyclic : hierarchy.knownParentGraph.Acyclic)
    (key : MethodKey) (owner : String) : Option String :=
  match renames.methodName? owner key with
  | some newName => some newName
  | none =>
    match _ : hierarchy.shape? owner with
    | some shape =>
      (shape.parents.filter hierarchy.knows).attach.findSome? fun parent =>
        renames.recursiveMethod hacyclic key parent.1
    | none => none
termination_by hierarchy.knownParentGraph.height owner
decreasing_by
  apply hacyclic.height_lt
  show parent.1 ∈ (hierarchy.parents owner).filter hierarchy.knows
  rw [Hierarchy.parents, ‹hierarchy.shape? owner = some shape›]
  exact parent.2

/-- The recursion in the form in which it determines what is found. -/
theorem recursiveMethod_eq (renames : Renames) (hacyclic : hierarchy.knownParentGraph.Acyclic)
    (key : MethodKey) (owner : String) :
    renames.recursiveMethod hacyclic key owner =
      (renames.methodName? owner key).or
        ((hierarchy.knownParentGraph.next owner).findSome?
          (renames.recursiveMethod hacyclic key)) := by
  have hnext : hierarchy.knownParentGraph.next owner =
      (hierarchy.parents owner).filter hierarchy.knows := rfl
  rw [recursiveMethod, hnext, Hierarchy.parents]
  cases renames.methodName? owner key with
  | some newName => rfl
  | none =>
    cases hierarchy.shape? owner with
    | some shape =>
      dsimp only
      rw [List.findSome?_subtype fun parent hparent => rfl, List.unattach_attach]
      rfl
    | none => rfl

/-- Without cycles resolution finds the name that plain recursion finds, whatever the
    renames, the class and the method. -/
theorem resolveMethod_eq_recursiveMethod (hacyclic : hierarchy.knownParentGraph.Acyclic)
    (renames : Renames) (owner : String) (key : MethodKey) :
    renames.resolveMethod hierarchy owner key = renames.recursiveMethod hacyclic key owner :=
  (eq_resolveMethod hacyclic (renames.recursiveMethod_eq hacyclic key) owner).symm

/-! ### Two lines of ancestry that meet -/

/-- A class with a superclass and an interface that extend the same class. -/
def diamondShape? (name : String) : Option ClassShape :=
  if name = "bottom" then some ((ClassShape.new "bottom" (some "left")).addInterface "right")
  else if name = "left" then some (ClassShape.new "left" (some "top"))
  else if name = "right" then some (ClassShape.new "right" (some "top"))
  else if name = "top" then some (ClassShape.new "top" (some "unknown"))
  else none

/-- The four classes and no other. -/
def diamond : Hierarchy where
  shape? := diamondShape?
  known := ["bottom", "left", "right", "top"]
  mem_known name h := by
    unfold diamondShape? at h
    split_ifs at h <;> simp_all

/-- How far a class is from the end of its line. -/
def diamondRank (name : String) : Nat :=
  if name = "bottom" then 2 else if name = "left" ∨ name = "right" then 1 else 0

theorem acyclic_diamond : diamond.knownParentGraph.Acyclic := by
  apply Graph.acyclic_of_rank diamondRank
  intro a b hedge
  obtain ⟨hparent, hknown⟩ := List.mem_filter.mp hedge
  have hdown : ∀ a ∈ diamond.known, ∀ b ∈ diamond.parents a, diamond.knows b = true →
      diamondRank b < diamondRank a := by decide
  have ha : a ∈ diamond.known := by
    by_contra hnot
    rw [diamond.parents_eq_nil hnot] at hparent
    cases hparent
  exact hdown a ha b hparent hknown

/-- The name at the top is found through the superclass, before that of the interface;
    names of unknown classes count for nothing. -/
theorem resolveMethod_eq_recursiveMethod_diamond :
    let key : MethodKey := ⟨"m", "()V"⟩
    let renames := ((setMethodName {} "right" key "fromRight").setMethodName "top" key
      "fromTop").setMethodName "unknown" key "stray"
    renames.resolveMethod diamond "bottom" key =
        renames.recursiveMethod acyclic_diamond key "bottom" ∧
      renames.recursiveMethod acyclic_diamond key "bottom" = some "fromTop" := by
  intro key renames
  refine ⟨resolveMethod_eq_recursiveMethod acyclic_diamond renames "bottom" key, ?_⟩
  rw [recursiveMethod_eq, show diamond.knownParentGraph.next "bottom" = ["left", "right"] by decide,
    List.findSome?_cons, recursiveMethod_eq,
    show diamond.knownParentGraph.next "left" = ["top"] by decide, List.findSome?_cons,
    recursiveMethod_eq]
  decide

end Renames

end Nomenclator
