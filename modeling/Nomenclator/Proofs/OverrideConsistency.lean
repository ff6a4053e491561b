import Nomenclator.Proofs.BuiltHierarchy
import Nomenclator.Proofs.CompleteWalks
import Nomenclator.Proofs.MethodResolution
import Nomenclator.Proofs.NameOrder
import Nomenclator.Proofs.Numbering
import Nomenclator.Proofs.Propagation
import Nomenclator.Proofs.Settled

/-!
# When overriding methods are consistent

A run numbers a method in every class that declares it and has no ancestor that does, and
each such definition gets a number of its own. Then every overriding method takes the first
name that a search through the ancestors of its class finds. So a method has one name all
the way up from a class exactly if there are no two definitions above the class; a class that
reaches two of them agrees with one and not with the other.

Results:
* `inherits_iff`: a class inherits a method if a proper ancestor declares it.
* `defineSlot_definitionNames`, `definitionPass_definitionNames`: after the definition pass
  exactly the definitions have names, all of them different.
* `run_takenFromDefinitions`: after a run every name is that of a definition, in the class
  itself or above it.
* `overrides_consistent_iff`: the classes above a class agree with it on the name of a method
  exactly if no two of them define it.
-/

namespace Nomenclator

open Relation (TransGen ReflTransGen)

/-! ## Ancestors that declare a method -/

namespace Hierarchy

variable {hierarchy : Hierarchy} {classes : List SourceClass}

/-- A class inherits a method exactly if a proper ancestor declares it. -/
theorem inherits_iff (hdescribes : hierarchy.Describes classes) {source : SourceClass}
    (hsource : source ∈ classes) (key : MethodKey) :
    hierarchy.inherits source.shape key = true ↔
      ∃ ancestor shape, TransGen hierarchy.parentGraph.Edge source.name ancestor ∧
        ancestor ≠ source.name ∧ hierarchy.shape? ancestor = some shape ∧
        shape.declares key = true := by
  have hparents : source.shape.parents = hierarchy.parentGraph.next source.name := by
    show _ = hierarchy.parents source.name
    rw [parents, hdescribes.shape_eq source hsource]
  have habove : ∀ ancestor, hierarchy.Above source.shape ancestor ↔
      TransGen hierarchy.parentGraph.Edge source.name ancestor ∧ ancestor ≠ source.name := by
    intro ancestor
    rw [← reaches_parents_iff, hparents]
    exact Graph.reaches_next_iff _ _ _
  rw [inherits_eq_true_iff]
  simp only [habove, and_assoc]

end Hierarchy

/-- The hierarchy of classes with different names describes them. -/
theorem describes_sourceSet {classes : List SourceClass} (hnames : (classes.map (·.name)).Nodup) :
    (SourceSet.ofList (classes.map (·.shape))).hierarchy.Describes classes where
  shape_eq source hsource := by
    refine SourceSet.find?_foldl_insert_of_mem ?_ (List.mem_map_of_mem hsource) {}
    rw [List.map_map]
    exact hnames
  name_eq source _ name shape _ hshape := by
    rcases SourceSet.find?_foldl_insert hshape with ⟨-, hname⟩ | hempty
    · exact hname
    · cases hempty

/-- A name that resolution finds stands in the entry of the class or of an ancestor. -/
theorem Renames.exists_of_resolveMethod {hierarchy : Hierarchy} {renames : Renames}
    {owner : String} {key : MethodKey} {newName : String}
    (h : renames.resolveMethod hierarchy owner key = some newName) :
    ∃ ancestor, ReflTransGen hierarchy.parentGraph.Edge owner ancestor ∧
      renames.methodName? ancestor key = some newName := by
  obtain ⟨ancestor, hreaches, hname⟩ := exists_of_resolveMethod_eq_some h
  have hedge {name parent : String} (h : hierarchy.KnownParent name parent) :
      hierarchy.parentGraph.Edge name parent := by
    obtain ⟨shape, hshape, hmem, -⟩ := h
    exact Hierarchy.mem_parents_iff.mpr ⟨shape, hshape, hmem⟩
  exact ⟨ancestor, hreaches.lift id fun _ _ => hedge, hname⟩

namespace Progress

variable {hierarchy : Hierarchy} {settings : Settings} {classes : List SourceClass}

/-! ## Steps that name no method -/

/-- The names of all methods stay as they are. -/
def KeepsMethodNames (p q : Progress) : Prop :=
  ∀ owner key, q.renames.methodName? owner key = p.renames.methodName? owner key

theorem KeepsMethodNames.refl (p : Progress) : KeepsMethodNames p p := fun _ _ => rfl

theorem KeepsMethodNames.trans {p q r : Progress} (hpq : KeepsMethodNames p q)
    (hqr : KeepsMethodNames q r) : KeepsMethodNames p r :=
  fun owner key => (hqr owner key).trans (hpq owner key)

theorem KeepsMethodNames.editField {p q : Progress} {owner name : String}
    {descriptor : Option String} {f : FieldRename → FieldRename}
    (h : q.renames = p.renames.editField owner name descriptor f) : KeepsMethodNames p q := by
  intro other key
  rw [h]
  exact congrArg Option.join (Renames.method?_editField _ _ _ _ _ _ _)

theorem KeepsMethodNames.setFieldName {p q : Progress} {owner name newName : String}
    {descriptor : Option String}
    (h : q.renames = p.renames.setFieldName owner name descriptor newName) :
    KeepsMethodNames p q := KeepsMethodNames.editField h

theorem applyRules_keepsMethodNames (rules : List FieldRule) (source : SourceClass)
    (p : Progress) (field : SourceMember) :
    KeepsMethodNames p (applyRules rules source p field) := by
  unfold applyRules
  split
  · exact KeepsMethodNames.setFieldName rfl
  · exact KeepsMethodNames.refl p

theorem bindConstant_keepsMethodNames (className : String) (p : Progress)
    (binding : String × String) : KeepsMethodNames p (bindConstant className p binding) := by
  rcases bindConstant_cases className p binding.1 binding.2 with ⟨-, heq⟩ | ⟨-, heq⟩
  · rw [heq]
    exact KeepsMethodNames.editField rfl
  · rw [heq]
    exact KeepsMethodNames.setFieldName rfl

theorem nameClass_keepsMethodNames {conventions : Conventions} {naming : ClassNaming}
    {p p' : Progress} {source : SourceClass}
    (h : nameClass conventions naming p source = some p') : KeepsMethodNames p p' := by
  rcases nameClass_cases h with ⟨-, rfl⟩ | ⟨-, id, -, rfl⟩
  · exact KeepsMethodNames.refl _
  · exact fun _ _ => congrArg Option.join (Renames.method?_setClassName _ _ _ _ _)

/-- The passes before the definition pass name no method. -/
theorem classesPass_keepsMethodNames {p named : Progress}
    (h : classesPass .standard settings classes
      (constantsPass settings classes (rulesPass settings classes p)) = some named) :
    KeepsMethodNames p named := by
  have hrules : KeepsMethodNames p (rulesPass settings classes p) :=
    rulesPass_rel KeepsMethodNames.refl KeepsMethodNames.trans
      (fun q source _ field _ => applyRules_keepsMethodNames _ source q field) p
  have hconstants : KeepsMethodNames (rulesPass settings classes p)
      (constantsPass settings classes (rulesPass settings classes p)) :=
    constantsPass_rel KeepsMethodNames.refl KeepsMethodNames.trans
      (fun _ q source _ _ _ binding _ => bindConstant_keepsMethodNames source.name q binding)
      (fun q _ _ _ => KeepsMethodNames.refl q) _
  have hclasses : KeepsMethodNames _ named :=
    classesPass_rel KeepsMethodNames.refl KeepsMethodNames.trans
      (fun _ _ _ _ _ _ => nameClass_keepsMethodNames) h
  exact (hrules.trans hconstants).trans hclasses

/-! ## Definitions -/

/-- A class of this name takes part and defines the method: it declares it under a name that
    is not kept, and no ancestor declares it. -/
def Defines (hierarchy : Hierarchy) (settings : Settings) (classes : List SourceClass)
    (owner : String) (key : MethodKey) : Prop :=
  ∃ source ∈ classes, source.name = owner ∧ settings.excludes owner = false ∧
    hierarchy.inherits source.shape key = false ∧
    ∃ method ∈ source.methods, method.key = key ∧ keepsMethodName settings source method = false

/-- Names of methods as the definition pass gives them: to definitions only, with numbers
    below the next one, and no name twice. -/
structure DefinitionNames (hierarchy : Hierarchy) (settings : Settings)
    (classes : List SourceClass) (p : Progress) : Prop where
  defines : ∀ {owner key newName}, p.renames.methodName? owner key = some newName →
    Defines hierarchy settings classes owner key
  numbered : ∀ {owner key newName}, p.renames.methodName? owner key = some newName →
    ∃ id < p.nextMember, ∃ oldName, newName = numberedName settings.methodPrefix id oldName
  unique : ∀ {owner key other otherKey newName}, p.renames.methodName? owner key = some newName →
    p.renames.methodName? other otherKey = some newName → other = owner ∧ otherKey = key

/-- A step that changes no name of a method and hands out no number twice. -/
theorem DefinitionNames.keep {p q : Progress} (h : DefinitionNames hierarchy settings classes p)
    (hnames : KeepsMethodNames p q) (hnext : p.nextMember ≤ q.nextMember) :
    DefinitionNames hierarchy settings classes q where
  defines {owner key newName} hname := h.defines ((hnames owner key).symm.trans hname)
  numbered {owner key newName} hname := by
    obtain ⟨id, hid, oldName, heq⟩ := h.numbered ((hnames owner key).symm.trans hname)
    exact ⟨id, Nat.lt_of_lt_of_le hid hnext, oldName, heq⟩
  unique {owner key other otherKey newName} hname hother :=
    h.unique ((hnames owner key).symm.trans hname) ((hnames other otherKey).symm.trans hother)

/-- A step that numbers a definition without a name. -/
theorem DefinitionNames.define {p q : Progress}
    (h : DefinitionNames hierarchy settings classes p) {owner : String} {key : MethodKey}
    {oldName : String} (hdefines : Defines hierarchy settings classes owner key)
    (hnames : q.renames = p.renames.setMethodName owner key
      (numberedName settings.methodPrefix p.nextMember oldName))
    (hnext : q.nextMember = p.nextMember + 1) : DefinitionNames hierarchy settings classes q := by
  -- The number is that of no name so far.
  have hfresh : ∀ {other otherKey},
      p.renames.methodName? other otherKey ≠
        some (numberedName settings.methodPrefix p.nextMember oldName) := by
    intro other otherKey hname
    obtain ⟨id, hid, name, heq⟩ := h.numbered hname
    have hsame := numberedName_injective heq
    omega
  have hcases : ∀ {other otherKey newName},
      q.renames.methodName? other otherKey = some newName →
      (other = owner ∧ otherKey = key ∧
        newName = numberedName settings.methodPrefix p.nextMember oldName) ∨
      p.renames.methodName? other otherKey = some newName := by
    intro other otherKey newName hname
    rw [hnames, Renames.methodName?_setMethodName] at hname
    split_ifs at hname with hset
    · exact Or.inl ⟨hset.1, hset.2, (Option.some.inj hname).symm⟩
    · exact Or.inr hname
  refine ⟨?_, ?_, ?_⟩
  · intro other otherKey newName hname
    rcases hcases hname with ⟨rfl, rfl, -⟩ | hold
    · exact hdefines
    · exact h.defines hold
  · intro other otherKey newName hname
    rcases hcases hname with ⟨-, -, rfl⟩ | hold
    · exact ⟨p.nextMember, by omega, oldName, rfl⟩
    · obtain ⟨id, hid, name, heq⟩ := h.numbered hold
      exact ⟨id, by omega, name, heq⟩
  · intro first firstKey second secondKey newName hfirst hsecond
    rcases hcases hfirst with ⟨rfl, rfl, rfl⟩ | hfirst
    · rcases hcases hsecond with ⟨rfl, rfl, -⟩ | hsecond
      · exact ⟨rfl, rfl⟩
      · exact absurd hsecond hfresh
    · rcases hcases hsecond with ⟨-, -, rfl⟩ | hsecond
      · exact absurd hfirst hfresh
      · exact h.unique hfirst hsecond

theorem defineSlot_definitionNames {p p' : Progress} {slot : Slot}
    (hslot : slot ∈ slots .standard settings (classesInOrder .standard settings classes))
    (hstep : defineSlot .standard hierarchy settings p slot = some p')
    (h : DefinitionNames hierarchy settings classes p) :
    DefinitionNames hierarchy settings classes p' := by
  cases slot with
  | field source field =>
    rcases defineField_cases hstep with ⟨-, rfl⟩ | ⟨-, -, rfl⟩ | ⟨-, -, next, hnext, rfl⟩
    · exact h
    · exact h.keep (KeepsMethodNames.setFieldName rfl) (Nat.le_refl _)
    · obtain ⟨-, rfl⟩ := advance32_eq_some hnext
      exact h.keep (KeepsMethodNames.setFieldName rfl) (Nat.le_succ _)
  | method source method =>
    rcases defineMethod_cases hstep with ⟨-, rfl⟩ | ⟨hopen, next, hnext, rfl⟩
    · exact h.keep (KeepsMethodNames.refl p) (Nat.le_refl _)
    · obtain ⟨-, rfl⟩ := advance32_eq_some hnext
      obtain ⟨-, hsource, hmethod⟩ := mem_slots_method.mp hslot
      obtain ⟨hlisted, hexcludes⟩ := mem_classesInOrder.mp hsource
      exact h.define
        ⟨source, hlisted, rfl, hexcludes, hopen.1, method, hmethod, rfl, hopen.2.2⟩ rfl rfl

theorem definitionPass_definitionNames {p p' : Progress}
    (h : definitionPass .standard hierarchy settings (classesInOrder .standard settings classes) p =
      some p')
    (hnone : ∀ owner key, p.renames.methodName? owner key = none) :
    DefinitionNames hierarchy settings classes p' := by
  have hstart : DefinitionNames hierarchy settings classes p := by
    refine ⟨fun hname => ?_, fun hname => ?_, fun hname _ => ?_⟩ <;>
    · rw [hnone] at hname
      cases hname
  refine definitionPass_rel (R := fun p q => DefinitionNames hierarchy settings classes p →
    DefinitionNames hierarchy settings classes q) (fun _ => id) (fun hpq hqr => hqr ∘ hpq)
    (fun p p' slot hslot => defineSlot_definitionNames hslot) ?_ h hstart
  exact fun q _ _ _ hq => hq.keep (KeepsMethodNames.refl q) (Nat.le_refl _)

/-- Every definition has a name after the definition pass. -/
theorem isSome_methodName?_of_defines {p p' : Progress}
    (h : definitionPass .standard hierarchy settings (classesInOrder .standard settings classes) p =
      some p')
    (hmethods : settings.mapMethods = true) {owner : String} {key : MethodKey}
    (hdefines : Defines hierarchy settings classes owner key) :
    (p'.renames.methodName? owner key).isSome := by
  obtain ⟨source, hsource, rfl, hexcludes, hinherits, method, hmethod, rfl, hkeeps⟩ := hdefines
  have hordered : source ∈ classesInOrder .standard settings classes :=
    mem_classesInOrder.mpr ⟨hsource, hexcludes⟩
  have hclosed := definitionPass_closes h (mem_slots_method.mpr ⟨hmethods, hordered, hmethod⟩)
  by_contra hname
  exact hclosed ⟨hinherits, Option.not_isSome_iff_eq_none.mp hname, hkeeps⟩

/-! ## Names after the whole run -/

/-- Names of methods as a whole run gives them: every definition has a name, no two
    definitions of a method share one, and any other name is that of a definition above. -/
structure TakenFromDefinitions (hierarchy : Hierarchy) (settings : Settings)
    (classes : List SourceClass) (renames : Renames) : Prop where
  named : ∀ {owner key}, Defines hierarchy settings classes owner key →
    (renames.methodName? owner key).isSome
  unique : ∀ {first second key newName}, Defines hierarchy settings classes first key →
    Defines hierarchy settings classes second key →
    renames.methodName? first key = some newName →
    renames.methodName? second key = some newName → first = second
  taken : ∀ {name key newName}, renames.methodName? name key = some newName →
    ∃ definition, ReflTransGen hierarchy.parentGraph.Edge name definition ∧
      Defines hierarchy settings classes definition key ∧
      renames.methodName? definition key = some newName

section Runs

variable (hdescribes : hierarchy.Describes classes)
  (hacyclic : hierarchy.knownParentGraph.Acyclic)

include hdescribes

/-- A definition keeps its name when overriding methods take theirs. -/
theorem methodName?_of_defines {ordered : List SourceClass}
    (hordered : ∀ source ∈ ordered, source ∈ classes) {owner : String} {key : MethodKey}
    (h : Defines hierarchy settings classes owner key) (p : Progress) :
    (ordered.foldl (propagateClass hierarchy) p).renames.methodName? owner key =
      p.renames.methodName? owner key := by
  apply methodName?_of_not_overrides
  rintro ⟨other, hother, hname, hinherits, -⟩
  obtain ⟨source, hsource, rfl, -, hnot, -⟩ := h
  -- The hierarchy has one shape under the name.
  have hshape := hdescribes.shape_eq other (hordered other hother)
  rw [hname, hdescribes.shape_eq source hsource] at hshape
  rw [← Option.some.inj hshape, hnot] at hinherits
  cases hinherits

include hacyclic

/-- A class does not define what a class above it declares. -/
theorem not_defines_of_ancestor {name : String} {ancestor : SourceClass}
    (hancestor : ancestor ∈ classes)
    (habove : TransGen hierarchy.parentGraph.Edge name ancestor.name) {key : MethodKey}
    (hdeclares : ancestor.shape.declares key = true) :
    ¬Defines hierarchy settings classes name key := by
  rintro ⟨source, hsource, rfl, -, hnot, -⟩
  have hne : ancestor.name ≠ source.name := by
    intro heq
    rw [heq] at habove
    exact Hierarchy.acyclic_parentGraph hacyclic source.name habove
  have hinherits : hierarchy.inherits source.shape key = true :=
    (Hierarchy.inherits_iff hdescribes hsource key).mpr
      ⟨ancestor.name, ancestor.shape, habove, hne, hdescribes.shape_eq ancestor hancestor,
        hdeclares⟩
  rw [hnot] at hinherits
  cases hinherits

/-- Every name after the last pass stood, before it, in the class itself or above it. -/
theorem foldl_propagateClass_taken {ordered : List SourceClass}
    (hordered : ∀ source ∈ ordered, source ∈ classes) {p : Progress} {name : String}
    {key : MethodKey} {newName : String}
    (h : (ordered.foldl (propagateClass hierarchy) p).renames.methodName? name key =
      some newName) :
    ∃ definition, ReflTransGen hierarchy.parentGraph.Edge name definition ∧
      p.renames.methodName? definition key = some newName := by
  by_cases hover : Overrides hierarchy ordered name key
  · rw [methodName?_of_overrides (hdescribes.mono hordered) hacyclic hover] at h
    exact Renames.exists_of_resolveMethod h
  · rw [methodName?_of_not_overrides hover] at h
    exact ⟨name, .refl, h⟩

/-- A run without names of methods before it takes them all from definitions. -/
theorem run_takenFromDefinitions {renames : Renames} {p : Progress}
    (hmethods : settings.mapMethods = true)
    (hnone : ∀ owner key, renames.methodName? owner key = none)
    (h : run .standard hierarchy settings classes renames = some p) :
    TakenFromDefinitions hierarchy settings classes p.renames := by
  obtain ⟨named, defined, hclasses, hdefined, rfl⟩ := run_eq_some_iff.mp h
  set ordered := classesInOrder .standard settings classes
  have hordered : ∀ source ∈ ordered, source ∈ classes :=
    fun source hsource => (mem_classesInOrder.mp hsource).1
  have hunnamed : ∀ owner key, named.renames.methodName? owner key = none := fun owner key =>
    (classesPass_keepsMethodNames hclasses owner key).trans (hnone owner key)
  have hnames := definitionPass_definitionNames hdefined hunnamed
  have hpass : (propagationPass hierarchy settings ordered defined).renames =
      (ordered.foldl (propagateClass hierarchy) defined).renames := by
    rw [propagationPass, if_pos hmethods]
    rfl
  rw [hpass]
  refine ⟨?_, ?_, ?_⟩
  · intro owner key hdefines
    rw [methodName?_of_defines hdescribes hordered hdefines]
    exact isSome_methodName?_of_defines hdefined hmethods hdefines
  · intro first second key newName hfirst hsecond hnameFirst hnameSecond
    rw [methodName?_of_defines hdescribes hordered hfirst] at hnameFirst
    rw [methodName?_of_defines hdescribes hordered hsecond] at hnameSecond
    exact (hnames.unique hnameSecond hnameFirst).1
  · intro name key newName hname
    obtain ⟨definition, habove, hgiven⟩ :=
      foldl_propagateClass_taken hdescribes hacyclic hordered hname
    have hdefines := hnames.defines hgiven
    refine ⟨definition, habove, hdefines, ?_⟩
    rw [methodName?_of_defines hdescribes hordered hdefines]
    exact hgiven

end Runs

end Progress

open Progress (Defines)

/-- Let a run name methods, none of which had a name. Then the classes above a class that
    take part and declare and name a method agree with the name that the class itself has for
    it exactly if there are no two definitions of the method above the class. -/
theorem overrides_consistent_iff {hierarchy : Hierarchy} {settings : Settings}
    {classes : List SourceClass} {renames : Renames} {p : Progress}
    (hdescribes : hierarchy.Describes classes) (hacyclic : hierarchy.knownParentGraph.Acyclic)
    (hshapes : ∀ source ∈ classes, ∀ method ∈ source.methods,
      source.shape.declares method.key = true)
    (hmethods : settings.mapMethods = true)
    (hnone : ∀ owner key, renames.methodName? owner key = none)
    (h : synthesizeWith hierarchy settings classes renames = some p) {name : String}
    {key : MethodKey} (hnamed : (p.renames.methodName? name key).isSome) :
    (∀ ancestor ∈ classes, settings.excludes ancestor.name = false →
      TransGen hierarchy.parentGraph.Edge name ancestor.name →
      (∃ method ∈ ancestor.methods, method.key = key) →
      (p.renames.methodName? ancestor.name key).isSome →
      p.renames.methodName? ancestor.name key = p.renames.methodName? name key) ↔
    (∀ first second, TransGen hierarchy.parentGraph.Edge name first →
      TransGen hierarchy.parentGraph.Edge name second →
      Defines hierarchy settings classes first key →
      Defines hierarchy settings classes second key → first = second) := by
  have htaken := Progress.run_takenFromDefinitions hdescribes hacyclic hmethods hnone h
  obtain ⟨newName, hnewName⟩ := Option.isSome_iff_exists.mp hnamed
  rw [hnewName]
  constructor
  · intro hagree first second hfirst hsecond hdefinesFirst hdefinesSecond
    -- A definition is one of the classes that agree.
    have hsame : ∀ owner, TransGen hierarchy.parentGraph.Edge name owner →
        Defines hierarchy settings classes owner key →
        p.renames.methodName? owner key = some newName := by
      intro owner habove hdefines
      have howner := htaken.named hdefines
      obtain ⟨source, hsource, rfl, hpart, -, method, hmethod, hkey, -⟩ := hdefines
      exact hagree source hsource hpart habove ⟨method, hmethod, hkey⟩ howner
    exact htaken.unique hdefinesFirst hdefinesSecond (hsame first hfirst hdefinesFirst)
      (hsame second hsecond hdefinesSecond)
  · rintro hone ancestor hancestor - habove ⟨method, hmethod, rfl⟩ hancestorNamed
    obtain ⟨given, hgiven⟩ := Option.isSome_iff_exists.mp hancestorNamed
    obtain ⟨first, hfirst, hdefinesFirst, hnameFirst⟩ := htaken.taken hgiven
    obtain ⟨second, hsecond, hdefinesSecond, hnameSecond⟩ := htaken.taken hnewName
    have hdeclares := hshapes ancestor hancestor method hmethod
    rcases Relation.reflTransGen_iff_eq_or_transGen.mp hsecond with rfl | hsecond
    · exact absurd hdefinesSecond
        (Progress.not_defines_of_ancestor hdescribes hacyclic hancestor habove hdeclares)
    · have hdefinition := hone first second (habove.trans_left hfirst) hsecond hdefinesFirst
        hdefinesSecond
      rw [hgiven, ← hnameFirst, hdefinition, hnameSecond]

/-! ### A class with two definitions above it -/

/-- A class below two interfaces, a class below one of them, and the interfaces. All four
    declare the same method. -/
def branchClasses : List SourceClass :=
  [(((SourceClass.new "c" none).addInterface "i").addInterface "j").addMethod 1 "m" "()V",
    ((SourceClass.new "d" none).addInterface "j").addMethod 1 "m" "()V",
    (SourceClass.new "i" none).addMethod 1 "m" "()V",
    (SourceClass.new "j" none).addMethod 1 "m" "()V"]

/-- The four classes and no other. -/
def branchHierarchy : Hierarchy := (SourceSet.ofList (branchClasses.map (·.shape))).hierarchy

/-- What identifies the method that all of them declare. -/
def branchKey : MethodKey := ⟨"m", "()V"⟩

theorem describes_branch : branchHierarchy.Describes branchClasses :=
  describes_sourceSet (by decide)

/-- The classes stand above the interfaces. -/
def branchRank (name : String) : Nat := if name = "c" ∨ name = "d" then 1 else 0

theorem acyclic_branch : branchHierarchy.knownParentGraph.Acyclic := by
  apply Graph.acyclic_of_rank branchRank
  intro a b hedge
  obtain ⟨hparent, -⟩ := List.mem_filter.mp hedge
  have hdown : ∀ a ∈ branchHierarchy.known, ∀ b ∈ branchHierarchy.parents a,
      branchRank b < branchRank a := by decide
  have ha : a ∈ branchHierarchy.known := by
    by_contra hnot
    rw [branchHierarchy.parents_eq_nil hnot] at hparent
    cases hparent
  exact hdown a ha b hparent

theorem branch_ordered : Progress.classesInOrder .standard {} branchClasses = branchClasses :=
  Progress.classesInOrder_eq_self (by decide) (by decide +kernel)

/-- The names that a run gives to the method. -/
theorem synthesizeWith_branch :
    ∃ p, synthesizeWith branchHierarchy {} branchClasses {} = some p ∧
      p.renames.methodName? "c" branchKey = some "func_0_m" ∧
      p.renames.methodName? "d" branchKey = some "func_1_m" ∧
      p.renames.methodName? "i" branchKey = some "func_0_m" ∧
      p.renames.methodName? "j" branchKey = some "func_1_m" := by
  have hrun : (synthesizeWith branchHierarchy {} branchClasses {}).map (fun p =>
      ["c", "d", "i", "j"].map (p.renames.methodName? · branchKey)) =
        some [some "func_0_m", some "func_1_m", some "func_0_m", some "func_1_m"] := by
    unfold synthesizeWith Progress.run
    rw [branch_ordered]
    -- No search looks at more than two names.
    delta Progress.definitionPass Progress.defineClass Progress.defineMethods
      Progress.defineMethod Progress.propagationPass Progress.propagateClass
      Progress.propagateMethod Progress.findInherited Hierarchy.findDeclaring
      Hierarchy.findAncestor
    simp only [Graph.walk_eq_walkUnrolled 2]
    decide +kernel
  obtain ⟨p, hp, hnames⟩ := Option.map_eq_some_iff.mp hrun
  simp only [List.map_cons, List.map_nil, List.cons.injEq, and_true] at hnames
  exact ⟨p, hp, hnames⟩

theorem above_branch {name : String} (h : TransGen branchHierarchy.parentGraph.Edge "d" name) :
    name = "j" := by
  have hparents : branchHierarchy.parents "d" = ["j"] := by decide
  have htop : branchHierarchy.parents "j" = [] := by decide
  induction h with
  | single hedge =>
    change _ ∈ branchHierarchy.parents "d" at hedge
    rw [hparents] at hedge
    exact List.mem_singleton.mp hedge
  | tail _ hedge ih =>
    change _ ∈ branchHierarchy.parents _ at hedge
    rw [ih, htop] at hedge
    cases hedge

/-- Below one definition only, the name is that of the definition. -/
theorem overrides_consistent_iff_branch :
    ∃ p, synthesizeWith branchHierarchy {} branchClasses {} = some p ∧
      p.renames.methodName? "j" branchKey = p.renames.methodName? "d" branchKey := by
  obtain ⟨p, hp, -, hd, -, hj⟩ := synthesizeWith_branch
  have hconsistent := (overrides_consistent_iff describes_branch acyclic_branch (by decide) rfl
    (fun _ _ => rfl) hp (Option.isSome_of_eq_some hd)).mpr fun first second hfirst hsecond _ _ =>
      (above_branch hfirst).trans (above_branch hsecond).symm
  refine ⟨p, hp, hconsistent ((SourceClass.new "j" none).addMethod 1 "m" "()V") ?_ rfl ?_ ?_ ?_⟩
  · simp [branchClasses]
  · exact .single (by decide : "j" ∈ branchHierarchy.parents "d")
  · exact ⟨_, List.mem_singleton_self _, rfl⟩
  · exact Option.isSome_of_eq_some hj

/-- Below two definitions, the name is that of one of them and not of the other. -/
theorem overrides_inconsistent_branch :
    (branchClasses.map (·.name)).Nodup ∧ branchHierarchy.Describes branchClasses ∧
    branchHierarchy.knownParentGraph.Acyclic ∧
    (∀ source ∈ branchClasses, source.shape.declares branchKey = true) ∧
    ∃ p, synthesizeWith branchHierarchy {} branchClasses {} = some p ∧
      TransGen branchHierarchy.parentGraph.Edge "c" "j" ∧
      p.renames.methodName? "c" branchKey = some "func_0_m" ∧
      p.renames.methodName? "j" branchKey = some "func_1_m" := by
  refine ⟨by decide, describes_branch, acyclic_branch, by decide, ?_⟩
  obtain ⟨p, hp, hc, -, -, hj⟩ := synthesizeWith_branch
  exact ⟨p, hp, .single (by decide : "j" ∈ branchHierarchy.parents "c"), hc, hj⟩

end Nomenclator
