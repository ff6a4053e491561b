import Nomenclator.Proofs.Ancestors
import Nomenclator.Proofs.Steps

/-!
# Overriding methods take the names that resolution finds

The pass over overriding methods writes into each class a name that references
resolved to anyway. So it changes no resolution, and what it writes does not depend on
the order in which it visits the classes, although names that it has written are
found by later searches.

Results:
* `resolveMethod_setMethodName`: writing down what resolution finds changes no
  resolution.
* `methodName?_propagated`: the name that each method has after the pass.
* `propagation_transparent`: the pass changes no resolution, gives overriding methods
  exactly the names that references resolve to, and does so in any order.
-/

namespace Nomenclator

/-- Writing down the name that resolution finds changes no resolution. -/
theorem Renames.resolveMethod_setMethodName {hierarchy : Hierarchy}
    (hacyclic : hierarchy.knownParentGraph.Acyclic) {renames : Renames} {owner : String}
    {key : MethodKey} {newName : String}
    (h : renames.resolveMethod hierarchy owner key = some newName) (name : String)
    (k : MethodKey) :
    (renames.setMethodName owner key newName).resolveMethod hierarchy name k =
      renames.resolveMethod hierarchy name k := by
  have hequation : ∀ other, renames.resolveMethod hierarchy other k =
      ((renames.setMethodName owner key newName).methodName? other k).or
        ((hierarchy.knownParentGraph.next other).findSome?
          fun parent => renames.resolveMethod hierarchy parent k) := by
    intro other
    rw [methodName?_setMethodName]
    split_ifs with hwritten
    · rw [hwritten.1, hwritten.2, h]
      rfl
    · exact resolveMethod_eq hacyclic renames other k
  exact (eq_resolveMethod hacyclic hequation name).symm

namespace Progress

open Renames (NamesMethods)

variable {hierarchy : Hierarchy} {order : List SourceClass}

/-! ## One method -/

theorem propagateMethod_namesMethods (hierarchy : Hierarchy) (source : SourceClass)
    (p : Progress) (method : SourceMember) :
    NamesMethods p.renames (propagateMethod hierarchy source p method).renames := by
  obtain ⟨asked, ⟨-, heq⟩ | ⟨hmay, newName, -, heq⟩⟩ :=
    propagateMethod_cases hierarchy source p method
  · rw [heq]
    exact NamesMethods.refl _
  · rw [heq]
    exact NamesMethods.setMethodName hmay.2 newName

section OneMethod

variable {source : SourceClass} (hdescribes : hierarchy.Describes order)
  (hacyclic : hierarchy.knownParentGraph.Acyclic) (hsource : source ∈ order)

include hdescribes hacyclic hsource

theorem propagateMethod_resolves (p : Progress) (method : SourceMember) (name : String)
    (k : MethodKey) :
    (propagateMethod hierarchy source p method).renames.resolveMethod hierarchy name k =
      p.renames.resolveMethod hierarchy name k := by
  obtain ⟨asked, ⟨-, heq⟩ | ⟨hmay, newName, hfound, heq⟩⟩ :=
    propagateMethod_cases hierarchy source p method
  · rw [heq]
    rfl
  · rw [findInherited_eq_resolveMethod hdescribes hsource hacyclic hmay.2] at hfound
    rw [heq]
    exact Renames.resolveMethod_setMethodName hacyclic hfound name k

/-- After its turn an overriding method has the name that resolution finds. -/
theorem methodName?_propagateMethod (p : Progress) {method : SourceMember}
    (hinherits : hierarchy.inherits source.shape method.key = true) :
    (propagateMethod hierarchy source p method).renames.methodName? source.name method.key =
      p.renames.resolveMethod hierarchy source.name method.key := by
  obtain ⟨asked, ⟨hleft, heq⟩ | ⟨hmay, newName, hfound, heq⟩⟩ :=
    propagateMethod_cases hierarchy source p method
  · rw [heq]
    show p.renames.methodName? source.name method.key = _
    cases hname : p.renames.methodName? source.name method.key with
    | some n => exact (Renames.resolveMethod_of_methodName? hacyclic hname).symm
    | none =>
      rw [← findInherited_eq_resolveMethod hdescribes hsource hacyclic hname]
      exact (hleft ⟨hinherits, hname⟩).symm
  · rw [findInherited_eq_resolveMethod hdescribes hsource hacyclic hmay.2] at hfound
    rw [heq, hfound]
    exact Renames.methodName?_setMethodName_self _ _ _ _

end OneMethod

/-! ## All methods -/

/-- A class of this name in the list declares the method and overrides one of an
    ancestor with it. -/
def Overrides (hierarchy : Hierarchy) (order : List SourceClass) (owner : String)
    (key : MethodKey) : Prop :=
  ∃ source ∈ order, source.name = owner ∧ hierarchy.inherits source.shape key = true ∧
    ∃ method ∈ source.methods, method.key = key

theorem Overrides.of_perm {other : List SourceClass} {owner : String} {key : MethodKey}
    (hperm : order.Perm other) :
    Overrides hierarchy order owner key ↔ Overrides hierarchy other owner key := by
  unfold Overrides
  simp only [hperm.mem_iff]

theorem propagation_namesMethods (hierarchy : Hierarchy) (order : List SourceClass)
    (p : Progress) :
    NamesMethods p.renames (order.foldl (propagateClass hierarchy) p).renames := by
  apply foldl_propagateClass_rel (R := fun p q => NamesMethods p.renames q.renames)
  · exact fun p => NamesMethods.refl p.renames
  · exact fun hpq hqr => hpq.trans hqr
  · exact fun p source _ method _ => propagateMethod_namesMethods hierarchy source p method

/-- Methods that override nothing keep what they have. -/
theorem methodName?_of_not_overrides {owner : String} {key : MethodKey}
    (h : ¬Overrides hierarchy order owner key) (p : Progress) :
    (order.foldl (propagateClass hierarchy) p).renames.methodName? owner key =
      p.renames.methodName? owner key := by
  apply foldl_propagateClass_rel (R := fun p q =>
    q.renames.methodName? owner key = p.renames.methodName? owner key)
  · exact fun p => rfl
  · exact fun hpq hqr => hqr.trans hpq
  · intro p source hsource method hmethod
    obtain ⟨asked, ⟨-, heq⟩ | ⟨hmay, newName, -, heq⟩⟩ :=
      propagateMethod_cases hierarchy source p method
    · rw [heq]
      rfl
    · rw [heq]
      refine (Renames.methodName?_setMethodName _ _ _ _ _ _).trans (if_neg ?_)
      rintro ⟨rfl, rfl⟩
      exact h ⟨source, hsource, rfl, hmay.1, method, hmethod, rfl⟩

section AllMethods

variable (hdescribes : hierarchy.Describes order)
  (hacyclic : hierarchy.knownParentGraph.Acyclic)

include hdescribes hacyclic

theorem resolveMethod_propagated (p : Progress) (name : String) (k : MethodKey) :
    (order.foldl (propagateClass hierarchy) p).renames.resolveMethod hierarchy name k =
      p.renames.resolveMethod hierarchy name k := by
  apply foldl_propagateClass_rel (R := fun p q =>
    q.renames.resolveMethod hierarchy name k = p.renames.resolveMethod hierarchy name k)
  · exact fun p => rfl
  · exact fun hpq hqr => hqr.trans hpq
  · exact fun p source hsource method _ =>
      propagateMethod_resolves hdescribes hacyclic hsource p method name k

/-- Methods that override have the name in the end that resolution found in the
    beginning. -/
theorem methodName?_of_overrides {owner : String} {key : MethodKey}
    (h : Overrides hierarchy order owner key) (p : Progress) :
    (order.foldl (propagateClass hierarchy) p).renames.methodName? owner key =
      p.renames.resolveMethod hierarchy owner key := by
  obtain ⟨source, hsource, rfl, hinherits, method, hmethod, rfl⟩ := h
  have hfinal := resolveMethod_propagated hdescribes hacyclic p source.name method.key
  rw [foldl_propagateClass_eq] at hfinal ⊢
  -- Its turn comes when resolution still finds what it found in the beginning.
  obtain ⟨q, ⟨-, hresolves⟩, hnames, -⟩ := foldl_through
    (R := fun p q => NamesMethods p.renames q.renames ∧ ∀ name k,
      q.renames.resolveMethod hierarchy name k = p.renames.resolveMethod hierarchy name k)
    (fun p => ⟨NamesMethods.refl _, fun _ _ => rfl⟩)
    (fun hpq hqr => ⟨hpq.1.trans hqr.1, fun name k => (hqr.2 name k).trans (hpq.2 name k)⟩)
    (fun p slot hslot => ⟨propagateMethod_namesMethods hierarchy slot.1 p slot.2,
      propagateMethod_resolves hdescribes hacyclic (mem_declaredMethods.mp hslot).1 p slot.2⟩)
    (mem_declaredMethods.mpr ⟨hsource, hmethod⟩) p
  have hturn := methodName?_propagateMethod hdescribes hacyclic hsource q hinherits
  rw [hresolves] at hturn
  cases hname : Renames.methodName? _ source.name method.key with
  | some newName =>
    rw [← hfinal]
    exact (Renames.resolveMethod_of_methodName? hacyclic hname).symm
  | none =>
    rw [← hturn]
    cases hafter : Renames.methodName? _ source.name method.key with
    | none => rfl
    | some newName =>
      rw [hnames.methodName hafter] at hname
      cases hname

end AllMethods

/-- The pass over overriding methods, from any progress and in any order of the
    classes that are not excluded, changes no resolution of a method. An overriding
    method without a name gets exactly the name that resolution found for it, if it
    found one. So any other order leads to the same renames. -/
theorem propagation_transparent (settings : Settings) {classes : List SourceClass}
    (hdescribes : hierarchy.Describes classes)
    (hacyclic : hierarchy.knownParentGraph.Acyclic) (p : Progress)
    (horder : order.Perm (classes.filter fun source => !settings.excludes source.name)) :
    (∀ owner key,
      (order.foldl (propagateClass hierarchy) p).renames.resolveMethod hierarchy owner key =
        p.renames.resolveMethod hierarchy owner key) ∧
    (∀ source ∈ classes, settings.excludes source.name = false → ∀ method ∈ source.methods,
      hierarchy.inherits source.shape method.key = true →
      p.renames.methodName? source.name method.key = none →
      (order.foldl (propagateClass hierarchy) p).renames.methodName? source.name method.key =
        p.renames.resolveMethod hierarchy source.name method.key) ∧
    (∀ other : List SourceClass, other.Perm order →
      (other.foldl (propagateClass hierarchy) p).renames =
        (order.foldl (propagateClass hierarchy) p).renames) := by
  have hordered : hierarchy.Describes order := hdescribes.mono fun source hsource =>
    (List.mem_filter.mp (horder.mem_iff.mp hsource)).1
  refine ⟨resolveMethod_propagated hordered hacyclic p, ?_, ?_⟩
  · intro source hsource hexcludes method hmethod hinherits _
    have hmem : source ∈ order := by
      rw [horder.mem_iff, List.mem_filter]
      exact ⟨hsource, by rw [hexcludes]; rfl⟩
    exact methodName?_of_overrides hordered hacyclic
      ⟨source, hmem, rfl, hinherits, method, hmethod, rfl⟩ p
  · intro other hperm
    have hothers : hierarchy.Describes other :=
      hordered.mono fun source => hperm.mem_iff.mp
    refine (propagation_namesMethods hierarchy other p).unique
      (propagation_namesMethods hierarchy order p) fun owner key => ?_
    by_cases hover : Overrides hierarchy order owner key
    · rw [methodName?_of_overrides hordered hacyclic hover,
        methodName?_of_overrides hothers hacyclic ((Overrides.of_perm hperm).mpr hover)]
    · rw [methodName?_of_not_overrides hover,
        methodName?_of_not_overrides fun h => hover ((Overrides.of_perm hperm).mp h)]

/-! ### A class that is visited before the one it extends -/

/-- What identifies a method that two classes declare. -/
def sharedKey : MethodKey := ⟨"m", "()V"⟩

/-- The class that declares the method first. -/
def parentClass : SourceClass := (SourceClass.new "p" none).addMethod 0 "m" "()V"

/-- The class that overrides it. -/
def childClass : SourceClass := (SourceClass.new "c" (some "p")).addMethod 0 "m" "()V"

/-- The two classes and no other. -/
def familyHierarchy : Hierarchy where
  shape? name :=
    if name = "p" then some parentClass.shape
    else if name = "c" then some childClass.shape
    else none
  known := ["p", "c"]
  mem_known name h := by
    split_ifs at h with hp hc
    · simp [hp]
    · simp [hc]
    · cases h

theorem describes_family : familyHierarchy.Describes [childClass, parentClass] where
  shape_eq := by decide
  name_eq source _ name shape _ h := by
    simp only [familyHierarchy] at h
    split_ifs at h with hp hc
    · rw [hp, ← Option.some.inj h]
      rfl
    · rw [hc, ← Option.some.inj h]
      rfl

theorem acyclic_family : familyHierarchy.knownParentGraph.Acyclic := by
  have hedge : ∀ {a b}, familyHierarchy.knownParentGraph.Edge a b → a = "c" ∧ b = "p" := by
    intro a b h
    have hmem : b ∈ familyHierarchy.parents a := (List.mem_filter.mp h).1
    simp only [Hierarchy.parents, familyHierarchy] at hmem
    by_cases hp : a = "p"
    · simp [hp] at hmem
      cases hmem
    · by_cases hc : a = "c"
      · simp [hc] at hmem
        exact ⟨hc, List.mem_singleton.mp hmem⟩
      · simp [hp, hc] at hmem
  intro name hcycle
  obtain ⟨_, hfirst, -⟩ := Relation.TransGen.head'_iff.mp hcycle
  obtain ⟨_, -, hlast⟩ := Relation.TransGen.tail'_iff.mp hcycle
  have heq : "c" = "p" := (hedge hfirst).1.symm.trans (hedge hlast).2
  exact absurd heq (by decide)

theorem propagation_transparent_family :
    let p : Progress := { renames := Renames.setMethodName {} "p" sharedKey "func_0_m" }
    ([childClass, parentClass].foldl (propagateClass familyHierarchy) p).renames.methodName?
        "c" sharedKey = some "func_0_m" ∧
      ([parentClass, childClass].foldl (propagateClass familyHierarchy) p).renames =
        ([childClass, parentClass].foldl (propagateClass familyHierarchy) p).renames := by
  intro p
  obtain ⟨-, hnamed, hperm⟩ := propagation_transparent {} describes_family acyclic_family p
    (List.Perm.refl _)
  refine ⟨?_, hperm _ (List.Perm.swap _ _ _)⟩
  have hparent : p.renames.resolveMethod familyHierarchy "p" sharedKey = some "func_0_m" :=
    Renames.resolveMethod_of_methodName? acyclic_family (by decide)
  have hchild : p.renames.resolveMethod familyHierarchy "c" sharedKey = some "func_0_m" := by
    rw [Renames.resolveMethod_eq acyclic_family,
      show familyHierarchy.knownParentGraph.next "c" = ["p"] by decide, List.findSome?_cons,
      hparent]
    decide
  have hinherits : familyHierarchy.inherits childClass.shape sharedKey = true := by
    have hdeclares : parentClass.shape.declares sharedKey = true := by decide
    unfold Hierarchy.inherits Hierarchy.findDeclaring Hierarchy.findAncestor
    rw [show childClass.shape.parents = ["p"] from rfl, Graph.walk]
    simp [familyHierarchy, hdeclares, show childClass.shape.name = "c" from rfl]
  rw [← hchild]
  exact hnamed childClass List.mem_cons_self rfl ⟨"m", "()V", 0⟩ (by decide) hinherits (by decide)

end Progress

end Nomenclator
