import Mathlib.Tactic
import Nomenclator.Naming.Synthesis
import Nomenclator.Proofs.Lookup

/-!
# The steps of a run and how passes are made of them

Results:
* `bindConstant_cases`, `nameClass_cases`, `defineField_cases`,
  `defineMethod_cases`, `propagateMethod_cases`: every result that a step can
  have, with the condition under which it has it.
* `rulesPass_eq`, `foldlM_defineClass_eq`, `foldl_propagateClass_eq`: a pass is one
  fold over the declared members in the order in which it looks at them.
* `rulesPass_rel`, …, `propagationPass_rel`: what holds between the progress
  before and after each step of a pass holds between the progress before and
  after the pass, if it is reflexive and transitive.
* `foldl_through`, `foldlM_through`: a fold reaches each of its steps and goes on from
  it, which is how what one step does is known in the end.
* `run_eq_some_iff`: a run is its five passes.
-/

namespace Nomenclator.Progress

/-! ## Results of single steps -/

/-- A constant is bound by making an entry for a field that has a name, or by
    naming the field. -/
theorem bindConstant_cases (className : String) (p : Progress) (field constant : String) :
    ((p.renames.fieldName? className field).isSome ∧
      bindConstant className p (field, constant) =
        { p with
          renames := p.renames.enterField className field
            (some (EnumConstants.descriptor className)) }) ∨
    (p.renames.fieldName? className field = none ∧
      bindConstant className p (field, constant) =
        { p with
          renames := p.renames.setFieldName className field
            (some (EnumConstants.descriptor className)) constant
          tally := { p.tally with recoveredConstants := p.tally.recoveredConstants + 1 } }.note
          (.constantRecovered className field constant)) := by
  cases hname : p.renames.fieldName? className field with
  | none => exact Or.inr ⟨rfl, by simp [bindConstant, hname]⟩
  | some n => exact Or.inl ⟨rfl, by simp [bindConstant, hname]⟩

/-- A class keeps the name it has or gets the next number. -/
theorem nameClass_cases {conventions : Conventions} {naming : ClassNaming} {p p' : Progress}
    {source : SourceClass} (h : nameClass conventions naming p source = some p') :
    ((p.renames.className? source.name).isSome ∧ p' = p) ∨
    (p.renames.className? source.name = none ∧
      ∃ id, conventions.advance p.nextClass = some id ∧
        p' = { p with
          renames := p.renames.setClassName source.name (newClassName naming id source.name)
          tally := { p.tally with namedClasses := p.tally.namedClasses + 1 }
          nextClass := id }.note
          (.classNamed source.name (newClassName naming id source.name))) := by
  unfold nameClass at h
  cases hname : p.renames.className? source.name with
  | some n =>
    simp only [hname, Option.isSome_some, ite_true, Option.some.injEq] at h
    exact Or.inl ⟨rfl, h.symm⟩
  | none =>
    simp only [hname, Option.isSome_none, Bool.false_eq_true, ite_false] at h
    obtain ⟨id, hid, hp⟩ := Option.bind_eq_some_iff.mp h
    exact Or.inr ⟨rfl, id, hid, (Option.some.inj hp).symm⟩

theorem takeMember_eq_some {conventions : Conventions} {p q : Progress} {id : Nat}
    (h : p.takeMember conventions = some (id, q)) :
    ∃ next, conventions.advance p.nextMember = some next ∧ id = p.nextMember ∧
      q = { p with nextMember := next } := by
  unfold takeMember at h
  obtain ⟨next, hnext, hq⟩ := Option.bind_eq_some_iff.mp h
  have hpair := Option.some.inj hq
  exact ⟨next, hnext, (congrArg Prod.fst hpair).symm, (congrArg Prod.snd hpair).symm⟩

/-- A field may be named: it has no name and its own does not protect it. -/
def FieldIsOpen (settings : Settings) (source : SourceClass) (renames : Renames)
    (field : SourceMember) : Prop :=
  renames.fieldName? source.name field.name = none ∧ keepsFieldName settings field.name = false

/-- A field is left alone, is the array of constants, or gets the next number. -/
theorem defineField_cases {conventions : Conventions} {settings : Settings} {source : SourceClass}
    {p p' : Progress} {field : SourceMember}
    (h : defineField conventions settings source p field = some p') :
    (¬FieldIsOpen settings source p.renames field ∧ p' = p) ∨
    (FieldIsOpen settings source p.renames field ∧
      (settings.mapSyntheticValues && isValuesArray source field) = true ∧
        p' = p.setField source field valuesName) ∨
    (FieldIsOpen settings source p.renames field ∧
      (settings.mapSyntheticValues && isValuesArray source field) = false ∧
      ∃ next, conventions.advance p.nextMember = some next ∧
        p' = { p with nextMember := next }.setField source field
          (numberedName settings.fieldPrefix p.nextMember field.name)) := by
  have hopen : FieldIsOpen settings source p.renames field ↔
      ¬((p.renames.fieldName? source.name field.name).isSome ||
        keepsFieldName settings field.name) = true := by
    unfold FieldIsOpen
    simp
  unfold defineField at h
  split_ifs at h with hleft hvalues
  · exact Or.inl ⟨by rw [hopen, not_not]; exact hleft, (Option.some.inj h).symm⟩
  · exact Or.inr (Or.inl ⟨hopen.mpr hleft, hvalues, (Option.some.inj h).symm⟩)
  · refine Or.inr (Or.inr ⟨hopen.mpr hleft, by simpa using hvalues, ?_⟩)
    obtain ⟨⟨id, q⟩, htake, hp⟩ := Option.bind_eq_some_iff.mp h
    obtain ⟨next, hnext, rfl, rfl⟩ := takeMember_eq_some htake
    exact ⟨next, hnext, (Option.some.inj hp).symm⟩

theorem defineField_of_not_open {settings : Settings} {source : SourceClass} {p : Progress}
    {field : SourceMember} (conventions : Conventions)
    (h : ¬FieldIsOpen settings source p.renames field) :
    defineField conventions settings source p field = some p := by
  unfold defineField
  rw [if_pos]
  by_contra hleft
  apply h
  simpa [FieldIsOpen] using hleft

/-- A method may be numbered: no ancestor declares it, it has no name and nothing
    protects its own. -/
def MethodIsOpen (hierarchy : Hierarchy) (settings : Settings) (source : SourceClass)
    (renames : Renames) (method : SourceMember) : Prop :=
  hierarchy.inherits source.shape method.key = false ∧
    renames.methodName? source.name method.key = none ∧
    keepsMethodName settings source method = false

/-- The classes that the search for the ancestor of a method asks about. -/
def askedFor (hierarchy : Hierarchy) (source : SourceClass) (method : SourceMember) :
    List String :=
  (hierarchy.findDeclaring source.shape method.key).examined

theorem methodIsOpen_iff (hierarchy : Hierarchy) (settings : Settings) (source : SourceClass)
    (renames : Renames) (method : SourceMember) :
    MethodIsOpen hierarchy settings source renames method ↔
      ¬((hierarchy.findDeclaring source.shape method.key).found.isSome ||
        (renames.methodName? source.name method.key).isSome ||
        keepsMethodName settings source method) = true := by
  simp [MethodIsOpen, Hierarchy.inherits, and_assoc]

/-- A method is left alone or gets the next number. -/
theorem defineMethod_cases {conventions : Conventions} {hierarchy : Hierarchy}
    {settings : Settings} {source : SourceClass} {p p' : Progress} {method : SourceMember}
    (h : defineMethod conventions hierarchy settings source p method = some p') :
    (¬MethodIsOpen hierarchy settings source p.renames method ∧
      p' = p.noteAsked (askedFor hierarchy source method)) ∨
    (MethodIsOpen hierarchy settings source p.renames method ∧
      ∃ next, conventions.advance p.nextMember = some next ∧
        p' = { p.noteAsked (askedFor hierarchy source method) with
          nextMember := next }.setMethod source method.key
            (numberedName settings.methodPrefix p.nextMember method.name)) := by
  have hopen := methodIsOpen_iff hierarchy settings source p.renames method
  unfold defineMethod at h
  dsimp only at h
  split_ifs at h with hleft
  · exact Or.inl ⟨by rw [hopen, not_not]; exact hleft, (Option.some.inj h).symm⟩
  · refine Or.inr ⟨hopen.mpr hleft, ?_⟩
    obtain ⟨⟨id, q⟩, htake, hp⟩ := Option.bind_eq_some_iff.mp h
    obtain ⟨next, hnext, rfl, rfl⟩ := takeMember_eq_some htake
    exact ⟨next, hnext, (Option.some.inj hp).symm⟩

theorem defineMethod_of_not_open {hierarchy : Hierarchy} {settings : Settings}
    {source : SourceClass} {p : Progress} {method : SourceMember} (conventions : Conventions)
    (h : ¬MethodIsOpen hierarchy settings source p.renames method) :
    defineMethod conventions hierarchy settings source p method =
      some (p.noteAsked (askedFor hierarchy source method)) := by
  unfold defineMethod
  dsimp only
  rw [if_pos]
  · rfl
  · by_contra hleft
    exact h ((methodIsOpen_iff hierarchy settings source p.renames method).mpr hleft)

theorem noteAsked_noteAsked (p : Progress) (first second : List String) :
    (p.noteAsked first).noteAsked second = p.noteAsked (first ++ second) := by
  simp [noteAsked, Array.append_assoc]

/-- A method may take a name: it overrides one of an ancestor and has no name. -/
def MethodMayInherit (hierarchy : Hierarchy) (source : SourceClass) (renames : Renames)
    (method : SourceMember) : Prop :=
  hierarchy.inherits source.shape method.key = true ∧
    renames.methodName? source.name method.key = none

/-- A method takes the name of one it overrides if it may and there is a name to
    take. -/
theorem propagateMethod_cases (hierarchy : Hierarchy) (source : SourceClass) (p : Progress)
    (method : SourceMember) :
    ∃ asked,
      ((MethodMayInherit hierarchy source p.renames method →
          (findInherited hierarchy p.renames source method.key).found = none) ∧
        propagateMethod hierarchy source p method = p.noteAsked asked) ∨
      (MethodMayInherit hierarchy source p.renames method ∧
        ∃ newName, (findInherited hierarchy p.renames source method.key).found = some newName ∧
          propagateMethod hierarchy source p method =
            (p.noteAsked asked).setInherited source method.key newName) := by
  have hmay : MethodMayInherit hierarchy source p.renames method ↔
      ¬((hierarchy.findDeclaring source.shape method.key).found.isNone ||
        (p.renames.methodName? source.name method.key).isSome) = true := by
    simp [MethodMayInherit, Hierarchy.inherits, Option.isSome_iff_ne_none]
  unfold propagateMethod
  dsimp only
  split_ifs with hleft
  · exact ⟨_, Or.inl ⟨fun hm => absurd hleft (hmay.mp hm), rfl⟩⟩
  · have hm := hmay.mpr hleft
    rw [noteAsked_noteAsked]
    split
    · next newName hfound => exact ⟨_, Or.inr ⟨hm, newName, hfound, rfl⟩⟩
    · next hfound => exact ⟨_, Or.inl ⟨fun _ => hfound, rfl⟩⟩

/-! ## Passes as folds over declared members -/

/-- The fields that the classes declare, in order. -/
def declaredFields (classes : List SourceClass) : List (SourceClass × SourceMember) :=
  classes.flatMap fun source => source.fields.map (source, ·)

/-- The methods that the classes declare, in order. -/
def declaredMethods (classes : List SourceClass) : List (SourceClass × SourceMember) :=
  classes.flatMap fun source => source.methods.map (source, ·)

/-- A declared member as the definition pass looks at it. -/
inductive Slot where
  | field (source : SourceClass) (member : SourceMember)
  | method (source : SourceClass) (member : SourceMember)

/-- The class that declares the member. -/
def Slot.source : Slot → SourceClass
  | .field source _ => source
  | .method source _ => source

/-- The step of the definition pass for a declared member. -/
def defineSlot (conventions : Conventions) (hierarchy : Hierarchy) (settings : Settings)
    (p : Progress) : Slot → Option Progress
  | .field source member => defineField conventions settings source p member
  | .method source member => defineMethod conventions hierarchy settings source p member

/-- The members of a class in the order in which they are numbered: fields before
    methods, each by name without regard to case and then by descriptor. -/
def slotsOf (conventions : Conventions) (settings : Settings) (source : SourceClass) : List Slot :=
  (if settings.mapFields then (membersInOrder conventions source.fields).map (.field source)
    else []) ++
  (if settings.mapMethods then (membersInOrder conventions source.methods).map (.method source)
    else [])

/-- The members of all classes in the order in which they are numbered. -/
def slots (conventions : Conventions) (settings : Settings) (classes : List SourceClass) :
    List Slot :=
  classes.flatMap (slotsOf conventions settings)

/-- Members that are in order already are numbered as they are declared. -/
theorem slots_eq_declared {conventions : Conventions} {settings : Settings}
    {classes : List SourceClass}
    (horder : ∀ source ∈ classes, ∀ members ∈ [source.fields, source.methods],
      members.Pairwise fun a b =>
        ((Text.compareIgnoringCase conventions.lower a.name b.name).then
          (compare a.descriptor b.descriptor)).isLE = true) :
    slots conventions settings classes = classes.flatMap fun source =>
      (if settings.mapFields then source.fields.map (.field source) else []) ++
        (if settings.mapMethods then source.methods.map (.method source) else []) := by
  refine List.flatMap_congr fun source hsource => ?_
  have hkept : ∀ members ∈ [source.fields, source.methods],
      membersInOrder conventions members = members := fun members hmembers =>
    List.mergeSort_of_pairwise (horder source hsource members hmembers)
  rw [slotsOf, hkept source.fields (by simp), hkept source.methods (by simp)]

theorem mem_declaredFields {classes : List SourceClass} {source : SourceClass}
    {field : SourceMember} :
    (source, field) ∈ declaredFields classes ↔ source ∈ classes ∧ field ∈ source.fields := by
  simp [declaredFields, and_comm, eq_comm]

theorem mem_declaredMethods {classes : List SourceClass} {source : SourceClass}
    {method : SourceMember} :
    (source, method) ∈ declaredMethods classes ↔ source ∈ classes ∧ method ∈ source.methods := by
  simp [declaredMethods, and_comm, eq_comm]

theorem mem_membersInOrder {conventions : Conventions} {members : List SourceMember}
    {member : SourceMember} : member ∈ membersInOrder conventions members ↔ member ∈ members :=
  List.mem_mergeSort

theorem mem_slots_field {conventions : Conventions} {settings : Settings}
    {classes : List SourceClass} {source : SourceClass} {field : SourceMember} :
    Slot.field source field ∈ slots conventions settings classes ↔
      settings.mapFields = true ∧ source ∈ classes ∧ field ∈ source.fields := by
  simp only [slots, slotsOf, List.mem_flatMap, List.mem_append]
  constructor
  · rintro ⟨s, hs, h | h⟩
    · split_ifs at h with hmap
      · obtain ⟨f, hf, heq⟩ := List.mem_map.mp h
        cases heq
        exact ⟨hmap, hs, mem_membersInOrder.mp hf⟩
      · cases h
    · split_ifs at h
      · obtain ⟨f, -, heq⟩ := List.mem_map.mp h
        cases heq
      · cases h
  · rintro ⟨hmap, hs, hf⟩
    refine ⟨source, hs, Or.inl ?_⟩
    rw [if_pos hmap]
    exact List.mem_map_of_mem (mem_membersInOrder.mpr hf)

theorem mem_slots_method {conventions : Conventions} {settings : Settings}
    {classes : List SourceClass} {source : SourceClass} {method : SourceMember} :
    Slot.method source method ∈ slots conventions settings classes ↔
      settings.mapMethods = true ∧ source ∈ classes ∧ method ∈ source.methods := by
  simp only [slots, slotsOf, List.mem_flatMap, List.mem_append]
  constructor
  · rintro ⟨s, hs, h | h⟩
    · split_ifs at h
      · obtain ⟨m, -, heq⟩ := List.mem_map.mp h
        cases heq
      · cases h
    · split_ifs at h with hmap
      · obtain ⟨m, hm, heq⟩ := List.mem_map.mp h
        cases heq
        exact ⟨hmap, hs, mem_membersInOrder.mp hm⟩
      · cases h
  · rintro ⟨hmap, hs, hm⟩
    refine ⟨source, hs, Or.inr ?_⟩
    rw [if_pos hmap]
    exact List.mem_map_of_mem (mem_membersInOrder.mpr hm)

theorem source_mem_of_mem_slots {conventions : Conventions} {settings : Settings}
    {classes : List SourceClass} {slot : Slot}
    (h : slot ∈ slots conventions settings classes) : slot.source ∈ classes := by
  cases slot with
  | field source field => exact (mem_slots_field.mp h).2.1
  | method source method => exact (mem_slots_method.mp h).2.1

theorem rulesPass_eq (settings : Settings) (classes : List SourceClass) (p : Progress) :
    rulesPass settings classes p =
      (declaredFields classes).foldl
        (fun q slot => applyRules settings.fieldRules slot.1 q slot.2) p := by
  unfold rulesPass declaredFields applyRulesToClass
  rw [List.foldl_flatMap]
  simp only [List.foldl_map]

theorem foldl_propagateClass_eq (hierarchy : Hierarchy) (classes : List SourceClass)
    (p : Progress) :
    classes.foldl (propagateClass hierarchy) p =
      (declaredMethods classes).foldl
        (fun q slot => propagateMethod hierarchy slot.1 q slot.2) p := by
  unfold declaredMethods propagateClass
  rw [List.foldl_flatMap]
  simp only [List.foldl_map]

theorem defineClass_eq (conventions : Conventions) (hierarchy : Hierarchy) (settings : Settings)
    (p : Progress) (source : SourceClass) :
    defineClass conventions hierarchy settings p source =
      (slotsOf conventions settings source).foldlM
        (defineSlot conventions hierarchy settings) p := by
  unfold defineClass defineFields defineMethods slotsOf
  rw [List.foldlM_append]
  split_ifs <;> simp [List.foldlM_map, defineSlot]

theorem foldlM_defineClass_eq (conventions : Conventions) (hierarchy : Hierarchy)
    (settings : Settings) (classes : List SourceClass) (p : Progress) :
    classes.foldlM (defineClass conventions hierarchy settings) p =
      (slots conventions settings classes).foldlM
        (defineSlot conventions hierarchy settings) p := by
  induction classes generalizing p with
  | nil => rfl
  | cons source classes ih =>
    rw [List.foldlM_cons, slots, List.flatMap_cons, List.foldlM_append, ← defineClass_eq]
    congr 1
    funext q
    exact ih q

/-! ## From steps to passes -/

section Rel

variable {R : Progress → Progress → Prop} (hrefl : ∀ p, R p p)
  (htrans : ∀ {p q r}, R p q → R q r → R p r)

include hrefl htrans

theorem foldl_rel {α : Type} {f : Progress → α → Progress} {l : List α}
    (hstep : ∀ p, ∀ x ∈ l, R p (f p x)) (p : Progress) : R p (l.foldl f p) := by
  induction l generalizing p with
  | nil => exact hrefl p
  | cons x l ih =>
    have hhead : R p (f p x) := hstep p x List.mem_cons_self
    have htail := ih (fun q y hy => hstep q y (List.mem_cons_of_mem _ hy)) (f p x)
    exact htrans hhead htail

theorem foldlM_rel {α : Type} {f : Progress → α → Option Progress} {l : List α}
    (hstep : ∀ p p', ∀ x ∈ l, f p x = some p' → R p p') {p p' : Progress}
    (h : l.foldlM f p = some p') : R p p' := by
  induction l generalizing p with
  | nil =>
    cases h
    exact hrefl _
  | cons x l ih =>
    rw [List.foldlM_cons] at h
    obtain ⟨q, hq, hrest⟩ := Option.bind_eq_some_iff.mp h
    have hhead : R p q := hstep p q x List.mem_cons_self hq
    exact htrans hhead (ih (fun a b y hy => hstep a b y (List.mem_cons_of_mem _ hy)) hrest)

/-- A fold reaches each of its steps and goes on from it. -/
theorem foldl_through {α : Type} {f : Progress → α → Progress} {l : List α}
    (hstep : ∀ p, ∀ x ∈ l, R p (f p x)) {x : α} (hx : x ∈ l) (p : Progress) :
    ∃ q, R p q ∧ R (f q x) (l.foldl f p) := by
  obtain ⟨before, after, rfl⟩ := List.append_of_mem hx
  refine ⟨before.foldl f p, ?_, ?_⟩
  · exact foldl_rel hrefl htrans (fun q y hy => hstep q y (List.mem_append_left _ hy)) p
  · rw [List.foldl_append]
    exact foldl_rel hrefl htrans
      (fun q y hy => hstep q y (List.mem_append_right _ (List.mem_cons_of_mem _ hy))) _

theorem foldlM_through {α : Type} {f : Progress → α → Option Progress} {l : List α}
    (hstep : ∀ p p', ∀ x ∈ l, f p x = some p' → R p p') {x : α} (hx : x ∈ l) {p p' : Progress}
    (h : l.foldlM f p = some p') : ∃ q q', R p q ∧ f q x = some q' ∧ R q' p' := by
  obtain ⟨before, after, rfl⟩ := List.append_of_mem hx
  rw [List.foldlM_append] at h
  obtain ⟨q, hq, hrest⟩ := Option.bind_eq_some_iff.mp h
  rw [List.foldlM_cons] at hrest
  obtain ⟨q', hq', hlast⟩ := Option.bind_eq_some_iff.mp hrest
  refine ⟨q, q', ?_, hq', ?_⟩
  · exact foldlM_rel hrefl htrans (fun a b y hy => hstep a b y (List.mem_append_left _ hy)) hq
  · exact foldlM_rel hrefl htrans
      (fun a b y hy => hstep a b y (List.mem_append_right _ (List.mem_cons_of_mem _ hy))) hlast

/-- A fold goes through if each step does from wherever the fold can get. -/
theorem foldlM_exists_rel {α : Type} {f : Progress → α → Option Progress} {l : List α}
    {p : Progress} (hstep : ∀ q, R p q → ∀ x ∈ l, ∃ q', f q x = some q' ∧ R q q') :
    ∃ p', l.foldlM f p = some p' ∧ R p p' := by
  induction l generalizing p with
  | nil => exact ⟨p, rfl, hrefl p⟩
  | cons x l ih =>
    obtain ⟨q, hq, hpq⟩ := hstep p (hrefl p) x List.mem_cons_self
    obtain ⟨p', hp', hqp'⟩ := ih fun r hqr y hy =>
      hstep r (htrans hpq hqr) y (List.mem_cons_of_mem _ hy)
    refine ⟨p', ?_, htrans hpq hqp'⟩
    rw [List.foldlM_cons, hq]
    exact hp'

theorem rulesPass_rel {settings : Settings} {classes : List SourceClass}
    (hstep : ∀ p, ∀ source ∈ classes, ∀ field ∈ source.fields,
      R p (applyRules settings.fieldRules source p field)) (p : Progress) :
    R p (rulesPass settings classes p) := by
  rw [rulesPass_eq]
  apply foldl_rel hrefl htrans
  rintro q ⟨source, field⟩ hslot
  obtain ⟨hsource, hfield⟩ := mem_declaredFields.mp hslot
  exact hstep q source hsource field hfield

theorem recoverConstants_rel {source : SourceClass}
    (hbind : ∀ p bindings, EnumConstants.ofClass source = .ok bindings → ∀ binding ∈ bindings,
      R p (bindConstant source.name p binding))
    (hnote : ∀ p cause, R p (p.note (.undecodable source.name cause))) (p : Progress) :
    R p (recoverConstants p source) := by
  unfold recoverConstants
  split
  · next bindings hbindings =>
    exact foldl_rel hrefl htrans (fun q binding hmem => hbind q bindings hbindings binding hmem) p
  · exact hnote p _

theorem constantsPass_rel {settings : Settings} {classes : List SourceClass}
    (hbind : settings.recoverEnumConstants = true → ∀ p, ∀ source ∈ classes, ∀ bindings,
      EnumConstants.ofClass source = .ok bindings → ∀ binding ∈ bindings,
        R p (bindConstant source.name p binding))
    (hnote : ∀ p, ∀ source ∈ classes, ∀ cause, R p (p.note (.undecodable source.name cause)))
    (p : Progress) : R p (constantsPass settings classes p) := by
  unfold constantsPass
  split_ifs with hrecover
  · apply foldl_rel hrefl htrans
    intro q source hsource
    exact recoverConstants_rel hrefl htrans (fun r => hbind hrecover r source hsource)
      (fun r => hnote r source hsource) q
  · exact hrefl p

theorem classesPass_rel {conventions : Conventions} {settings : Settings}
    {classes : List SourceClass}
    (hstep : ∀ naming, settings.classes = some naming → ∀ p p', ∀ source ∈ classes,
      nameClass conventions naming p source = some p' → R p p')
    {p p' : Progress} (h : classesPass conventions settings classes p = some p') : R p p' := by
  unfold classesPass at h
  split at h
  · next naming hnaming => exact foldlM_rel hrefl htrans (hstep naming hnaming) h
  · cases h
    exact hrefl _

theorem definitionPass_rel {conventions : Conventions} {hierarchy : Hierarchy}
    {settings : Settings} {classes : List SourceClass}
    (hstep : ∀ p p', ∀ slot ∈ slots conventions settings classes,
      defineSlot conventions hierarchy settings p slot = some p' → R p p')
    (hnote : ∀ p fields methods next,
      R p (p.note (.definitionsDone classes.length fields methods next)))
    {p p' : Progress}
    (h : definitionPass conventions hierarchy settings classes p = some p') : R p p' := by
  unfold definitionPass at h
  obtain ⟨q, hq, hp⟩ := Option.bind_eq_some_iff.mp h
  cases hp
  rw [foldlM_defineClass_eq] at hq
  exact htrans (foldlM_rel hrefl htrans hstep hq) (hnote q _ _ _)

theorem foldl_propagateClass_rel {hierarchy : Hierarchy} {classes : List SourceClass}
    (hstep : ∀ p, ∀ source ∈ classes, ∀ method ∈ source.methods,
      R p (propagateMethod hierarchy source p method)) (p : Progress) :
    R p (classes.foldl (propagateClass hierarchy) p) := by
  rw [foldl_propagateClass_eq]
  apply foldl_rel hrefl htrans
  rintro q ⟨source, method⟩ hslot
  obtain ⟨hsource, hmethod⟩ := mem_declaredMethods.mp hslot
  exact hstep q source hsource method hmethod

theorem propagationPass_rel {hierarchy : Hierarchy} {settings : Settings}
    {classes : List SourceClass}
    (hstep : ∀ p, ∀ source ∈ classes, ∀ method ∈ source.methods,
      R p (propagateMethod hierarchy source p method))
    (hnote : ∀ p methods, R p (p.note (.propagationDone methods))) (p : Progress) :
    R p (propagationPass hierarchy settings classes p) := by
  unfold propagationPass
  split_ifs
  · exact htrans (foldl_propagateClass_rel hrefl htrans hstep p) (hnote _ _)
  · exact hnote _ _

end Rel

/-- A run is its five passes, of which two can fail. -/
theorem run_eq_some_iff {conventions : Conventions} {hierarchy : Hierarchy} {settings : Settings}
    {classes : List SourceClass} {renames : Renames} {p : Progress} :
    run conventions hierarchy settings classes renames = some p ↔
      ∃ named defined,
        classesPass conventions settings (classesInOrder conventions settings classes)
          (constantsPass settings (classesInOrder conventions settings classes)
            (rulesPass settings (classesInOrder conventions settings classes)
              (start settings renames))) = some named ∧
        definitionPass conventions hierarchy settings
          (classesInOrder conventions settings classes) named = some defined ∧
        p = propagationPass hierarchy settings (classesInOrder conventions settings classes)
          defined := by
  unfold run
  simp only [Option.bind_eq_bind, Option.bind_eq_some_iff, Option.pure_def, Option.some.injEq]
  constructor
  · rintro ⟨named, hnamed, defined, hdefined, rfl⟩
    exact ⟨named, defined, hnamed, hdefined, rfl⟩
  · rintro ⟨named, defined, hnamed, hdefined, rfl⟩
    exact ⟨named, hnamed, defined, hdefined, rfl⟩

theorem mem_classesInOrder {conventions : Conventions} {settings : Settings}
    {classes : List SourceClass} {source : SourceClass} :
    source ∈ classesInOrder conventions settings classes ↔
      source ∈ classes ∧ settings.excludes source.name = false := by
  simp [classesInOrder]

end Nomenclator.Progress
