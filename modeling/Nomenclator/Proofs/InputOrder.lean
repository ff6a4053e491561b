import Nomenclator.Proofs.Reordering
import Nomenclator.Proofs.Steps

/-!
# Runs do not depend on the order of their input

The same classes in another order, each with its members in another order, get the same names
and leave the same counters, whatever the lower-case expansions of characters are. Only the log
of a run may tell the orders apart: field rules and overriding methods are dealt with in the
order in which members are declared.

Results:
* `Alike`: progress that differs in nothing but the log. Steps keep it so (`Alike.applyRules`
  and its siblings), and so do folds over lists with the same items (`Alike.foldl_perm`).
* `applyRules_comm`, `propagateMethod_comm`: the steps for two fields or two methods of a class
  can be taken in either order.
* `Alike.applyRulesToClass`, …, `Alike.propagateClass`: what is done for a class does not
  depend on the order of its members.
* `synthesize_reordered`: a run does not depend on the order of its input.
-/

namespace Nomenclator

open SourceClass (Reorders)

theorem optionRel_bind {α β : Type} {R : α → α → Prop} {S : β → β → Prop} {a b : Option α}
    {f g : α → Option β} (h : Option.Rel R a b) (hfg : ∀ x y, R x y → Option.Rel S (f x) (g y)) :
    Option.Rel S (a.bind f) (b.bind g) := by
  cases h with
  | none => exact .none
  | some hxy => exact hfg _ _ hxy

namespace Progress

/-! ## Progress up to the log -/

/-- The progress differs in nothing but the log. -/
def Alike (p q : Progress) : Prop := ∃ log, q = { p with log := log }

namespace Alike

variable {p q r : Progress}

theorem refl (p : Progress) : Alike p p := ⟨p.log, rfl⟩

theorem symm (h : Alike p q) : Alike q p := by
  obtain ⟨log, rfl⟩ := h
  exact ⟨p.log, rfl⟩

theorem trans (hpq : Alike p q) (hqr : Alike q r) : Alike p r := by
  obtain ⟨log, rfl⟩ := hpq
  obtain ⟨log', rfl⟩ := hqr
  exact ⟨log', rfl⟩

theorem note (h : Alike p q) (first second : Event) : Alike (p.note first) (q.note second) := by
  obtain ⟨log, rfl⟩ := h
  exact ⟨_, rfl⟩

theorem foldl_forall₂ {α : Type} {R : α → α → Prop} {f g : Progress → α → Progress}
    {items others : List α} (hitems : List.Forall₂ R items others)
    (hstep : ∀ p q x y, R x y → Alike p q → Alike (f p x) (g q y)) (h : Alike p q) :
    Alike (items.foldl f p) (others.foldl g q) := by
  induction hitems generalizing p q with
  | nil => exact h
  | cons hxy _ ih => exact ih (hstep _ _ _ _ hxy h)

theorem foldlM_forall₂ {α : Type} {R : α → α → Prop} {f g : Progress → α → Option Progress}
    {items others : List α} (hitems : List.Forall₂ R items others)
    (hstep : ∀ p q x y, R x y → Alike p q → Option.Rel Alike (f p x) (g q y)) (h : Alike p q) :
    Option.Rel Alike (items.foldlM f p) (others.foldlM g q) := by
  induction hitems generalizing p q with
  | nil => exact .some h
  | cons hxy _ ih =>
    rw [List.foldlM_cons, List.foldlM_cons]
    exact optionRel_bind (hstep _ _ _ _ hxy h) fun _ _ => ih

theorem foldl {α : Type} {f : Progress → α → Progress}
    (hstep : ∀ p q x, Alike p q → Alike (f p x) (f q x)) (items : List α) (h : Alike p q) :
    Alike (items.foldl f p) (items.foldl f q) := by
  refine foldl_forall₂ (R := Eq) (List.forall₂_refl items) ?_ h
  rintro p q x _ rfl hpq
  exact hstep p q x hpq

theorem foldlM {α : Type} {f : Progress → α → Option Progress}
    (hstep : ∀ p q x, Alike p q → Option.Rel Alike (f p x) (f q x)) (items : List α)
    (h : Alike p q) : Option.Rel Alike (items.foldlM f p) (items.foldlM f q) := by
  refine foldlM_forall₂ (R := Eq) (List.forall₂_refl items) ?_ h
  rintro p q x _ rfl hpq
  exact hstep p q x hpq

/-- Steps of which any two can be taken in either order can be taken in any order. -/
theorem foldl_perm {α : Type} {f : Progress → α → Progress} {items others : List α}
    (hperm : items.Perm others) (hstep : ∀ p q x, Alike p q → Alike (f p x) (f q x))
    (hcomm : ∀ p, ∀ x ∈ items, ∀ y ∈ items, Alike (f (f p x) y) (f (f p y) x))
    (h : Alike p q) : Alike (items.foldl f p) (others.foldl f q) := by
  induction hperm generalizing p q with
  | nil => exact h
  | cons x _ ih =>
    refine ih (fun p y hy z hz => ?_) (hstep p q x h)
    exact hcomm p y (List.mem_cons_of_mem _ hy) z (List.mem_cons_of_mem _ hz)
  | swap x y items =>
    have hswap : Alike (f (f p y) x) (f (f p x) y) := hcomm p y (by simp) x (by simp)
    exact foldl hstep items (hswap.trans (hstep _ _ y (hstep p q x h)))
  | trans hfirst _ ihfirst ihsecond =>
    have hfirst' := ihfirst hcomm (refl p)
    refine hfirst'.trans (ihsecond (fun p x hx y hy => ?_) h)
    exact hcomm p x (hfirst.mem_iff.mpr hx) y (hfirst.mem_iff.mpr hy)

/-! ### Steps -/

theorem applyRules (h : Alike p q) (rules : List FieldRule) (source : SourceClass)
    (field : SourceMember) :
    Alike (p.applyRules rules source field) (q.applyRules rules source field) := by
  obtain ⟨log, rfl⟩ := h
  unfold Progress.applyRules
  cases FieldRule.last? rules field.descriptor field.access with
  | none => exact ⟨_, rfl⟩
  | some rule => exact ⟨_, rfl⟩

theorem bindConstant (h : Alike p q) (className : String) (binding : String × String) :
    Alike (p.bindConstant className binding) (q.bindConstant className binding) := by
  obtain ⟨log, rfl⟩ := h
  unfold Progress.bindConstant
  dsimp only
  split_ifs <;> exact ⟨_, rfl⟩

theorem recoverConstants (h : Alike p q) (source : SourceClass) :
    Alike (p.recoverConstants source) (q.recoverConstants source) := by
  unfold Progress.recoverConstants
  cases EnumConstants.ofClass source with
  | ok bindings => exact foldl (fun _ _ binding h => h.bindConstant source.name binding) bindings h
  | error cause => exact h.note _ _

theorem nameClass (h : Alike p q) (conventions : Conventions) (naming : ClassNaming)
    (source : SourceClass) :
    Option.Rel Alike (p.nameClass conventions naming source)
      (q.nameClass conventions naming source) := by
  obtain ⟨log, rfl⟩ := h
  unfold Progress.nameClass
  dsimp only
  split_ifs
  · exact .some ⟨_, rfl⟩
  · cases conventions.advance p.nextClass with
    | none => exact .none
    | some id => exact .some ⟨_, rfl⟩

theorem defineField (h : Alike p q) (conventions : Conventions) (settings : Settings)
    (source : SourceClass) (field : SourceMember) :
    Option.Rel Alike (p.defineField conventions settings source field)
      (q.defineField conventions settings source field) := by
  obtain ⟨log, rfl⟩ := h
  unfold Progress.defineField takeMember
  dsimp only
  split_ifs
  · exact .some ⟨_, rfl⟩
  · exact .some ⟨_, rfl⟩
  · cases conventions.advance p.nextMember with
    | none => exact .none
    | some next => exact .some ⟨_, rfl⟩

theorem defineMethod (h : Alike p q) (conventions : Conventions) (hierarchy : Hierarchy)
    (settings : Settings) (source : SourceClass) (method : SourceMember) :
    Option.Rel Alike (p.defineMethod conventions hierarchy settings source method)
      (q.defineMethod conventions hierarchy settings source method) := by
  obtain ⟨log, rfl⟩ := h
  unfold Progress.defineMethod takeMember noteAsked
  dsimp only
  split_ifs
  · exact .some ⟨_, rfl⟩
  · cases conventions.advance p.nextMember with
    | none => exact .none
    | some next => exact .some ⟨_, rfl⟩

theorem defineClass (h : Alike p q) (conventions : Conventions) (hierarchy : Hierarchy)
    (settings : Settings) (source : SourceClass) :
    Option.Rel Alike (p.defineClass conventions hierarchy settings source)
      (q.defineClass conventions hierarchy settings source) := by
  rw [defineClass_eq, defineClass_eq]
  refine foldlM (fun p q slot h => ?_) _ h
  cases slot with
  | field source field => exact h.defineField conventions settings source field
  | method source method => exact h.defineMethod conventions hierarchy settings source method

end Alike

/-! ## Steps in either order -/

/-- Rules can be applied to two fields in either order. -/
theorem applyRules_comm (rules : List FieldRule) (source : SourceClass) (p : Progress)
    {a b : SourceMember} (h : a.name ≠ b.name) :
    Alike (applyRules rules source (applyRules rules source p a) b)
      (applyRules rules source (applyRules rules source p b) a) := by
  unfold applyRules
  cases FieldRule.last? rules a.descriptor a.access with
  | none => exact Alike.refl _
  | some ruleA =>
    cases FieldRule.last? rules b.descriptor b.access with
    | none => exact Alike.refl _
    | some ruleB =>
      dsimp only [note]
      rw [Renames.setFieldName_comm _ _ h]
      exact ⟨_, rfl⟩

/-- The name that a method takes from one that it overrides, if it takes one. -/
def inheritedName? (hierarchy : Hierarchy) (source : SourceClass) (renames : Renames)
    (key : MethodKey) : Option String :=
  if hierarchy.inherits source.shape key && (renames.methodName? source.name key).isNone then
    (findInherited hierarchy renames source key).found
  else none

/-- The progress after a method has taken a name, if there is one to take. -/
def takeName (source : SourceClass) (key : MethodKey) (newName : Option String)
    (p : Progress) : Progress :=
  match newName with
  | some newName => p.setInherited source key newName
  | none => p

theorem propagateMethod_alike (hierarchy : Hierarchy) (source : SourceClass) (p : Progress)
    (method : SourceMember) :
    Alike (takeName source method.key (inheritedName? hierarchy source p.renames method.key) p)
      (propagateMethod hierarchy source p method) := by
  have hmay_iff : (hierarchy.inherits source.shape method.key &&
      (p.renames.methodName? source.name method.key).isNone) = true ↔
        MethodMayInherit hierarchy source p.renames method := by
    simp [MethodMayInherit]
  obtain ⟨asked, ⟨hnone, hstep⟩ | ⟨hmay, newName, hfound, hstep⟩⟩ :=
    propagateMethod_cases hierarchy source p method
  · have hname : inheritedName? hierarchy source p.renames method.key = none := by
      unfold inheritedName?
      split_ifs with hmay
      · exact hnone (hmay_iff.mp hmay)
      · rfl
    rw [hname, hstep]
    exact ⟨_, rfl⟩
  · have hname : inheritedName? hierarchy source p.renames method.key = some newName := by
      rw [inheritedName?, if_pos (hmay_iff.mpr hmay), hfound]
    rw [hname, hstep]
    exact ⟨_, rfl⟩

theorem Alike.takeName {p q : Progress} (h : Alike p q) (source : SourceClass) (key : MethodKey)
    (newName : Option String) :
    Alike (Progress.takeName source key newName p) (Progress.takeName source key newName q) := by
  obtain ⟨log, rfl⟩ := h
  cases newName with
  | none => exact ⟨_, rfl⟩
  | some newName => exact ⟨_, rfl⟩

theorem takeName_comm (source : SourceClass) {a b : MethodKey} (h : a ≠ b)
    (newA newB : Option String) (p : Progress) :
    Alike (takeName source b newB (takeName source a newA p))
      (takeName source a newA (takeName source b newB p)) := by
  cases newA with
  | none => exact Alike.refl _
  | some newA =>
    cases newB with
    | none => exact Alike.refl _
    | some newB =>
      dsimp only [takeName, setInherited, note]
      rw [Renames.setMethodName_comm _ _ h]
      exact ⟨_, rfl⟩

theorem Alike.propagateMethod {p q : Progress} (h : Alike p q) (hierarchy : Hierarchy)
    (source : SourceClass) (method : SourceMember) :
    Alike (p.propagateMethod hierarchy source method)
      (q.propagateMethod hierarchy source method) := by
  have hrenames : q.renames = p.renames := by
    obtain ⟨log, rfl⟩ := h
    rfl
  have hq := propagateMethod_alike hierarchy source q method
  rw [hrenames] at hq
  exact (propagateMethod_alike hierarchy source p method).symm.trans ((h.takeName _ _ _).trans hq)

/-- What a method takes a name from has nothing to do with other methods. -/
theorem inheritedName?_setMethodName (hierarchy : Hierarchy) (source : SourceClass)
    (renames : Renames) {a b : MethodKey} (h : a ≠ b) (newName : String) :
    inheritedName? hierarchy source (renames.setMethodName source.name a newName) b =
      inheritedName? hierarchy source renames b := by
  have hname : ∀ c, (renames.setMethodName source.name a newName).methodName? c b =
      renames.methodName? c b := by
    intro c
    rw [Renames.methodName?_setMethodName, if_neg fun hb => h hb.2.symm]
  unfold inheritedName? findInherited
  simp only [hname]

theorem inheritedName?_propagateMethod (hierarchy : Hierarchy) (source : SourceClass)
    (p : Progress) {a : SourceMember} {b : MethodKey} (h : a.key ≠ b) :
    inheritedName? hierarchy source (propagateMethod hierarchy source p a).renames b =
      inheritedName? hierarchy source p.renames b := by
  obtain ⟨log, hp⟩ := propagateMethod_alike hierarchy source p a
  rw [hp]
  cases inheritedName? hierarchy source p.renames a.key with
  | none => rfl
  | some newName => exact inheritedName?_setMethodName hierarchy source p.renames h newName

/-- Two methods can take names in either order. -/
theorem propagateMethod_comm (hierarchy : Hierarchy) (source : SourceClass) (p : Progress)
    {a b : SourceMember} (h : a.key ≠ b.key) :
    Alike (propagateMethod hierarchy source (propagateMethod hierarchy source p a) b)
      (propagateMethod hierarchy source (propagateMethod hierarchy source p b) a) := by
  -- Both are the progress after both methods have taken the names they take before the other.
  have hpair : ∀ {a b : SourceMember}, a.key ≠ b.key →
      Alike (takeName source b.key (inheritedName? hierarchy source p.renames b.key)
          (takeName source a.key (inheritedName? hierarchy source p.renames a.key) p))
        (propagateMethod hierarchy source (propagateMethod hierarchy source p a) b) := by
    intro a b h
    have hb := propagateMethod_alike hierarchy source (propagateMethod hierarchy source p a) b
    rw [inheritedName?_propagateMethod hierarchy source p h] at hb
    exact ((propagateMethod_alike hierarchy source p a).takeName _ _ _).trans hb
  exact (hpair h).symm.trans ((takeName_comm source h _ _ p).trans (hpair h.symm))

/-! ## What is done for a class -/

/-- No two fields and no two methods of the class share name and descriptor, and if there are
    rules, no two fields share their names. -/
structure HasDistinctMembers (settings : Settings) (source : SourceClass) : Prop where
  fields : (source.fields.map fun field => (field.name, field.descriptor)).Nodup
  methods : (source.methods.map fun method => (method.name, method.descriptor)).Nodup
  ruledFields : settings.fieldRules ≠ [] → (source.fields.map SourceMember.name).Nodup

section Reorders

variable {settings : Settings} {source other : SourceClass} {hierarchy hierarchy' : Hierarchy}
  {p q : Progress}

theorem Alike.applyRulesToClass (hreorders : source.Reorders other)
    (hdistinct : HasDistinctMembers settings source) (h : Alike p q) :
    Alike (p.applyRulesToClass settings.fieldRules source)
      (q.applyRulesToClass settings.fieldRules other) := by
  have hsame : Progress.applyRules settings.fieldRules other =
      Progress.applyRules settings.fieldRules source := by
    funext p field
    unfold Progress.applyRules
    rw [hreorders.name]
  unfold Progress.applyRulesToClass
  rw [hsame]
  refine foldl_perm hreorders.fields (fun _ _ field h => h.applyRules _ _ field) ?_ h
  intro p a ha b hb
  by_cases hrules : settings.fieldRules = []
  · -- Without rules nothing happens to any field.
    rw [hrules]
    exact refl p
  by_cases hab : a.name = b.name
  · rw [List.inj_on_of_nodup_map (hdistinct.ruledFields hrules) ha hb hab]
    exact refl _
  · exact applyRules_comm _ _ _ hab

theorem ofClass_reorders (hreorders : source.Reorders other) :
    EnumConstants.ofClass other = EnumConstants.ofClass source := by
  unfold EnumConstants.ofClass
  rw [hreorders.superName, hreorders.staticInit, hreorders.name]

theorem recoverConstants_reorders (hreorders : source.Reorders other) (p : Progress) :
    recoverConstants p other = recoverConstants p source := by
  unfold recoverConstants
  rw [ofClass_reorders hreorders, hreorders.name]

theorem nameClass_reorders (hreorders : source.Reorders other) (conventions : Conventions)
    (naming : ClassNaming) (p : Progress) :
    nameClass conventions naming p other = nameClass conventions naming p source := by
  unfold nameClass
  rw [hreorders.name]

theorem defineFields_reorders (hreorders : source.Reorders other)
    (hdistinct : HasDistinctMembers settings source) (conventions : Conventions) (p : Progress) :
    defineFields conventions settings p other = defineFields conventions settings p source := by
  have hsame : defineField conventions settings other =
      defineField conventions settings source := by
    funext p field
    unfold defineField isValuesArray setField
    rw [hreorders.name, hreorders.superName]
  unfold defineFields
  rw [hsame, membersInOrder_eq_of_perm conventions hreorders.fields hdistinct.fields]

theorem defineMethods_reorders (hreorders : source.Reorders other)
    (hdistinct : HasDistinctMembers settings source) (hhierarchy : hierarchy.Alike hierarchy')
    (conventions : Conventions) (p : Progress) :
    defineMethods conventions hierarchy' settings p other =
      defineMethods conventions hierarchy settings p source := by
  have hsame : defineMethod conventions hierarchy' settings other =
      defineMethod conventions hierarchy settings source := by
    funext p method
    unfold defineMethod keepsMethodName isEnumMethod setMethod
    rw [hhierarchy.findDeclaring_eq hreorders.shape, hreorders.name, hreorders.superName]
  unfold defineMethods
  rw [hsame, membersInOrder_eq_of_perm conventions hreorders.methods hdistinct.methods]

theorem defineClass_reorders (hreorders : source.Reorders other)
    (hdistinct : HasDistinctMembers settings source) (hhierarchy : hierarchy.Alike hierarchy')
    (conventions : Conventions) (p : Progress) :
    defineClass conventions hierarchy' settings p other =
      defineClass conventions hierarchy settings p source := by
  unfold defineClass
  simp only [defineFields_reorders hreorders hdistinct, defineMethods_reorders hreorders hdistinct hhierarchy]

theorem propagateMethod_reorders (hreorders : source.Reorders other)
    (hhierarchy : hierarchy.Alike hierarchy') :
    propagateMethod hierarchy' other = propagateMethod hierarchy source := by
  have hinherited : ∀ renames key, findInherited hierarchy' renames other key =
      findInherited hierarchy renames source key := by
    intro renames key
    refine hhierarchy.findAncestor_eq hreorders.shape ?_
    rintro a _ ⟨fields, rfl⟩
    rfl
  funext p method
  unfold propagateMethod setInherited
  simp only [hhierarchy.findDeclaring_eq hreorders.shape, hinherited, hreorders.name]

theorem Alike.propagateClass (hreorders : source.Reorders other)
    (hdistinct : HasDistinctMembers settings source) (hhierarchy : hierarchy.Alike hierarchy')
    (h : Alike p q) :
    Alike (p.propagateClass hierarchy source) (q.propagateClass hierarchy' other) := by
  unfold Progress.propagateClass
  rw [propagateMethod_reorders hreorders hhierarchy]
  refine foldl_perm hreorders.methods (fun _ _ method h => h.propagateMethod _ _ method) ?_ h
  intro p a ha b hb
  by_cases hab : a.key = b.key
  · obtain ⟨hname, hdescriptor⟩ := MethodKey.mk.inj hab
    rw [List.inj_on_of_nodup_map hdistinct.methods ha hb (by rw [hname, hdescriptor])]
    exact refl _
  · exact propagateMethod_comm _ _ _ hab

end Reorders

/-! ## Passes and runs -/

section Passes

variable {settings : Settings} {classes others : List SourceClass}
  {hierarchy hierarchy' : Hierarchy} {p q : Progress}
  (hclasses : List.Forall₂ (fun source other => HasDistinctMembers settings source ∧
    source.Reorders other) classes others)

include hclasses

theorem Alike.rulesPass (h : Alike p q) :
    Alike (p.rulesPass settings classes) (q.rulesPass settings others) :=
  foldl_forall₂ hclasses
    (fun _ _ _ _ hsource h => h.applyRulesToClass hsource.2 hsource.1) h

theorem Alike.constantsPass (h : Alike p q) :
    Alike (p.constantsPass settings classes) (q.constantsPass settings others) := by
  unfold Progress.constantsPass
  split_ifs
  · refine foldl_forall₂ hclasses (fun p q source other hsource h => ?_) h
    rw [recoverConstants_reorders hsource.2]
    exact h.recoverConstants source
  · exact h

theorem Alike.classesPass (h : Alike p q) (conventions : Conventions) :
    Option.Rel Alike (p.classesPass conventions settings classes)
      (q.classesPass conventions settings others) := by
  unfold Progress.classesPass
  cases settings.classes with
  | none => exact .some h
  | some naming =>
    refine foldlM_forall₂ hclasses (fun p q source other hsource h => ?_) h
    rw [nameClass_reorders hsource.2]
    exact h.nameClass conventions naming source

theorem Alike.definitionPass (h : Alike p q) (hhierarchy : hierarchy.Alike hierarchy')
    (conventions : Conventions) :
    Option.Rel Alike (p.definitionPass conventions hierarchy settings classes)
      (q.definitionPass conventions hierarchy' settings others) := by
  unfold Progress.definitionPass
  refine optionRel_bind (foldlM_forall₂ hclasses (fun p q source other hsource h => ?_) h)
    fun p q h => .some (h.note _ _)
  rw [defineClass_reorders hsource.2 hsource.1 hhierarchy]
  exact h.defineClass conventions hierarchy settings source

theorem Alike.propagationPass (h : Alike p q) (hhierarchy : hierarchy.Alike hierarchy') :
    Alike (p.propagationPass hierarchy settings classes)
      (q.propagationPass hierarchy' settings others) := by
  unfold Progress.propagationPass
  split_ifs
  · exact (foldl_forall₂ hclasses
      (fun _ _ _ _ hsource h => h.propagateClass hsource.2 hsource.1 hhierarchy) h).note _ _
  · exact h.note _ _

end Passes

/-- Runs over the same classes in another order go alike, or overflow both. -/
theorem run_alike {classes others : List SourceClass} (h : Reordered classes others)
    (hnames : (classes.map SourceClass.name).Nodup) {settings : Settings}
    (hdistinct : ∀ source ∈ classes, HasDistinctMembers settings source)
    (conventions : Conventions) (renames : Renames) :
    Option.Rel Alike (run conventions (hierarchyOf classes) settings classes renames)
      (run conventions (hierarchyOf others) settings others renames) := by
  have hhierarchy := h.alike_hierarchyOf hnames
  have hclasses : List.Forall₂ (fun source other => HasDistinctMembers settings source ∧
      source.Reorders other) (classesInOrder conventions settings classes)
      (classesInOrder conventions settings others) := by
    rw [List.forall₂_and_left]
    exact ⟨fun source hsource => hdistinct source (mem_classesInOrder.mp hsource).1,
      h.forall₂_classesInOrder hnames conventions settings⟩
  have hstart := ((Alike.refl (start settings renames)).rulesPass hclasses).constantsPass hclasses
  exact optionRel_bind (hstart.classesPass hclasses conventions) fun p q hnamed =>
    optionRel_bind (hnamed.definitionPass hclasses hhierarchy conventions) fun p q hdefined =>
      .some (hdefined.propagationPass hclasses hhierarchy)

/-- What a run leaves behind: the renames and its outcome. -/
def result (p : Progress) : Renames × Outcome := (p.renames, p.outcome)

theorem map_result_eq {first second : Option Progress} (h : Option.Rel Alike first second) :
    second.map result = first.map result := by
  cases h with
  | none => rfl
  | some halike =>
    obtain ⟨log, rfl⟩ := halike
    rfl

end Progress

/-- A run does not depend on the order of its input: the same classes in another order, each
    with its members in another order, get the same names and leave the same outcome, or the
    counter overflows in both orders. It does not matter which characters count as the lower
    case of which. -/
theorem synthesize_reordered {classes others : List SourceClass} (h : Reordered classes others)
    (hnames : (classes.map SourceClass.name).Nodup) {settings : Settings}
    (hdistinct : ∀ source ∈ classes, Progress.HasDistinctMembers settings source)
    (renames : Renames) :
    (synthesize settings others renames).map Progress.result =
        (synthesize settings classes renames).map Progress.result ∧
      ∀ conventions : Conventions,
        (Progress.run conventions (hierarchyOf others) settings others renames).map
            Progress.result =
          (Progress.run conventions (hierarchyOf classes) settings classes renames).map
            Progress.result := by
  have hrun : ∀ conventions : Conventions,
      (Progress.run conventions (hierarchyOf others) settings others renames).map
          Progress.result =
        (Progress.run conventions (hierarchyOf classes) settings classes renames).map
          Progress.result :=
    fun conventions =>
      Progress.map_result_eq (Progress.run_alike h hnames hdistinct conventions renames)
  exact ⟨hrun .standard, hrun⟩

/-- A class with two fields of one name, and below it a class of the same name up to case, with
    a method that overrides and one that does not. -/
def overridingPair : List SourceClass :=
  [(((SourceClass.new "Base" none).addField 0 "f" "I").addField 0 "f" "J").addMethod 0 "m" "()V",
    ((SourceClass.new "base" (some "Base")).addMethod 0 "m" "()V").addMethod 0 "M" "()V"]

/-- The same two classes; they and their members are in the opposite order. -/
def reversedPair : List SourceClass :=
  [((SourceClass.new "base" (some "Base")).addMethod 0 "M" "()V").addMethod 0 "m" "()V",
    (((SourceClass.new "Base" none).addField 0 "f" "J").addField 0 "f" "I").addMethod 0 "m" "()V"]

theorem synthesize_reordered_pair :
    (synthesize {} reversedPair {}).map Progress.result =
      (synthesize {} overridingPair {}).map Progress.result := by
  refine (synthesize_reordered ⟨_, List.Perm.swap _ _ _, .cons ?_ (.cons ?_ .nil)⟩ ?_ ?_ {}).1
  · exact ⟨by decide, by decide, by decide, rfl⟩
  · exact ⟨by decide, by decide, by decide, rfl⟩
  · decide
  · intro source hsource
    rcases List.mem_cons.mp hsource with rfl | hsource
    · exact ⟨by decide, by decide, by decide⟩
    · rw [List.mem_singleton.mp hsource]
      exact ⟨by decide, by decide, by decide⟩

end Nomenclator
