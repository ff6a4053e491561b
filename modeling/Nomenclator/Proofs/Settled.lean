import Nomenclator.Proofs.Ancestors
import Nomenclator.Proofs.Frame

/-!
# What a run leaves settled

After a run nothing is left for a further run to do. For most passes this is so
because each step does what there is to do at its member and later steps take no name
away. The pass over overriding methods needs more: a method that found no name at its
turn must not find one in the end, although ancestors may have got names since.

Results:
* `propagateMethod_keepsUnnamedLine`: if neither a class nor an ancestor of it has a
  name for a method, none of the ancestors gets one before the class does.
* `run_settled`: all that a run leaves settled.
-/

namespace Nomenclator.Progress

open Renames (Keeps KeepsNames Adds)

/-! ## Fields, constants and classes -/

/-- The entry of a field has a name and a descriptor. -/
structure FieldIsComplete (renames : Renames) (owner field : String) : Prop where
  name : (renames.fieldName? owner field).isSome
  descriptor : (renames.fieldDescriptor? owner field).isSome

theorem FieldIsComplete.mono {before after : Renames} {owner field : String}
    (h : FieldIsComplete before owner field) (hkeeps : KeepsNames before after) :
    FieldIsComplete after owner field := by
  obtain ⟨d, hd⟩ := Option.isSome_iff_exists.mp h.descriptor
  refine ⟨hkeeps.isSome_fieldName? h.name, ?_⟩
  rw [hkeeps.fieldDescriptor owner field d hd]
  rfl

theorem FieldIsComplete.setFieldName (renames : Renames) (owner field descriptor newName : String) :
    FieldIsComplete (renames.setFieldName owner field (some descriptor) newName) owner field := by
  constructor
  · rw [Renames.fieldName?_setFieldName_self]
    rfl
  · rw [Renames.fieldDescriptor?_setFieldName, if_pos ⟨rfl, rfl⟩]
    cases renames.fieldDescriptor? owner field <;> rfl

/-- A field to which rules apply has a descriptor after the rules. -/
theorem isSome_fieldDescriptor?_rulesPass {settings : Settings} {classes : List SourceClass}
    {owner field : String}
    (h : (ruleName? settings.fieldRules (declaredFields classes) owner field).isSome)
    (p : Progress) :
    ((rulesPass settings classes p).renames.fieldDescriptor? owner field).isSome := by
  obtain ⟨slot, hslot, hat⟩ := List.findSome?_isSome_iff.mp h
  unfold ruleNameAt? at hat
  split_ifs at hat with hkey
  swap
  · cases hat
  obtain ⟨rule, hrule⟩ := Option.isSome_iff_exists.mp (Option.isSome_map.symm.trans hat)
  rw [rulesPass_eq]
  obtain ⟨q, -, hkeeps⟩ := foldl_through (R := fun p q => Keeps p.renames q.renames)
    (fun p => Keeps.refl p.renames) (fun hpq hqr => hpq.trans hqr)
    (fun p slot _ => applyRules_keeps settings.fieldRules slot.1 p slot.2)
    (List.mem_reverse.mp hslot) p
  have hcomplete : FieldIsComplete (applyRules settings.fieldRules slot.1 q slot.2).renames
      owner field := by
    unfold applyRules
    rw [hrule, hkey.1, hkey.2]
    exact FieldIsComplete.setFieldName _ _ _ _ _
  obtain ⟨d, hd⟩ := Option.isSome_iff_exists.mp hcomplete.descriptor
  rw [hkeeps.fieldDescriptor owner field d hd]
  rfl

theorem bindConstant_completes (className : String) (p : Progress) (binding : String × String) :
    FieldIsComplete (bindConstant className p binding).renames className binding.1 := by
  rcases bindConstant_cases className p binding.1 binding.2 with ⟨hname, heq⟩ | ⟨-, heq⟩
  · rw [heq]
    refine ⟨by rw [Renames.fieldName?_enterField]; exact hname, ?_⟩
    rw [Renames.fieldDescriptor?_enterField, if_pos ⟨rfl, rfl⟩]
    cases p.renames.fieldDescriptor? className binding.1 <;> rfl
  · rw [heq]
    exact FieldIsComplete.setFieldName _ _ _ _ _

theorem bindConstant_keepsNames (className : String) (p : Progress) (binding : String × String) :
    KeepsNames p.renames (bindConstant className p binding).renames := by
  have hadds : Adds (fun _ => True) p.renames (bindConstant className p binding).renames :=
    bindConstant_adds trivial p binding.1 binding.2
  exact hadds.keepsNames

/-- Every field that an enumeration binds to a constant is complete after the pass. -/
theorem constantsPass_completes {settings : Settings} {classes : List SourceClass}
    (hrecover : settings.recoverEnumConstants = true) {source : SourceClass}
    (hsource : source ∈ classes) {bindings : List (String × String)}
    (hbindings : EnumConstants.ofClass source = .ok bindings) {binding : String × String}
    (hbinding : binding ∈ bindings) (p : Progress) :
    FieldIsComplete (constantsPass settings classes p).renames source.name binding.1 := by
  have hrefl : ∀ p : Progress, KeepsNames p.renames p.renames := fun p => KeepsNames.refl p.renames
  have htrans : ∀ {p q r : Progress}, KeepsNames p.renames q.renames →
      KeepsNames q.renames r.renames → KeepsNames p.renames r.renames :=
    fun hpq hqr => hpq.trans hqr
  rw [constantsPass, if_pos hrecover]
  obtain ⟨q, -, hclass⟩ := foldl_through (R := fun p q => KeepsNames p.renames q.renames)
    hrefl htrans (fun p source _ => recoverConstants_rel
      (R := fun p q => KeepsNames p.renames q.renames) hrefl htrans
      (fun p bindings _ binding _ => bindConstant_keepsNames source.name p binding)
      (fun p cause => hrefl p) p) hsource p
  have hrecovered : recoverConstants q source = bindings.foldl (bindConstant source.name) q := by
    rw [recoverConstants, hbindings]
  rw [hrecovered] at hclass
  obtain ⟨r, -, hfield⟩ := foldl_through (R := fun p q => KeepsNames p.renames q.renames)
    hrefl htrans (fun p binding _ => bindConstant_keepsNames source.name p binding) hbinding q
  exact (bindConstant_completes source.name r binding).mono (hfield.trans hclass)

theorem nameClass_keepsNames {conventions : Conventions} {naming : ClassNaming}
    {p p' : Progress} {source : SourceClass}
    (h : nameClass conventions naming p source = some p') : KeepsNames p.renames p'.renames := by
  have hadds : Adds (fun _ => True) p.renames p'.renames := nameClass_adds trivial h
  exact hadds.keepsNames

theorem nameClass_names {conventions : Conventions} {naming : ClassNaming} {p p' : Progress}
    {source : SourceClass} (h : nameClass conventions naming p source = some p') :
    (p'.renames.className? source.name).isSome := by
  rcases nameClass_cases h with ⟨hname, rfl⟩ | ⟨-, id, -, rfl⟩
  · exact hname
  · exact Option.isSome_of_eq_some (Renames.className?_setClassName_self _ _ _)

/-- Every class has a name after the pass that names classes. -/
theorem classesPass_names {conventions : Conventions} {settings : Settings}
    {classes : List SourceClass} {p p' : Progress}
    (h : classesPass conventions settings classes p = some p')
    (hclasses : settings.classes.isSome) {source : SourceClass} (hsource : source ∈ classes) :
    (p'.renames.className? source.name).isSome := by
  obtain ⟨naming, hnaming⟩ := Option.isSome_iff_exists.mp hclasses
  unfold classesPass at h
  rw [hnaming] at h
  obtain ⟨q, q', -, hstep, hkeeps⟩ := foldlM_through
    (R := fun p q => KeepsNames p.renames q.renames) (fun p => KeepsNames.refl p.renames)
    (fun hpq hqr => hpq.trans hqr) (fun p p' source _ => nameClass_keepsNames) hsource h
  exact hkeeps.isSome_className? (nameClass_names hstep)

/-! ## Members that classes define themselves -/

/-- The member may be named in the definition pass. -/
def Slot.IsOpen (hierarchy : Hierarchy) (settings : Settings) (renames : Renames) : Slot → Prop
  | .field source member => FieldIsOpen settings source renames member
  | .method source member => MethodIsOpen hierarchy settings source renames member

theorem Slot.isOpen_of_keepsNames {hierarchy : Hierarchy} {settings : Settings}
    {before after : Renames} (hkeeps : KeepsNames before after) {slot : Slot}
    (h : slot.IsOpen hierarchy settings after) : slot.IsOpen hierarchy settings before := by
  cases slot with
  | field source member =>
    refine ⟨?_, h.2⟩
    by_contra hname
    have hafter := hkeeps.isSome_fieldName? (Option.isSome_iff_ne_none.mpr hname)
    rw [h.1] at hafter
    cases hafter
  | method source member =>
    refine ⟨h.1, ?_, h.2.2⟩
    by_contra hname
    have hafter := hkeeps.isSome_methodName? (Option.isSome_iff_ne_none.mpr hname)
    rw [h.2.1] at hafter
    cases hafter

theorem defineSlot_keepsNames {conventions : Conventions} {hierarchy : Hierarchy}
    {settings : Settings} {p p' : Progress} {slot : Slot}
    (h : defineSlot conventions hierarchy settings p slot = some p') :
    KeepsNames p.renames p'.renames := by
  have hadds : Adds (fun _ => True) p.renames p'.renames := defineSlot_adds trivial h
  exact hadds.keepsNames

/-- A field that has just been given a name is not open. -/
theorem not_fieldIsOpen_setField (p : Progress) (settings : Settings) (source : SourceClass)
    (field : SourceMember) (newName : String) :
    ¬FieldIsOpen settings source (p.setField source field newName).renames field := by
  intro hopen
  have hset := Renames.fieldName?_setFieldName_self p.renames source.name field.name
    (some field.descriptor) newName
  cases hset.symm.trans hopen.1

theorem defineSlot_closes {conventions : Conventions} {hierarchy : Hierarchy}
    {settings : Settings} {p p' : Progress} {slot : Slot}
    (h : defineSlot conventions hierarchy settings p slot = some p') :
    ¬slot.IsOpen hierarchy settings p'.renames := by
  cases slot with
  | field source field =>
    rcases defineField_cases h with ⟨hclosed, rfl⟩ | ⟨-, -, rfl⟩ | ⟨-, -, next, -, rfl⟩
    · exact hclosed
    · exact not_fieldIsOpen_setField _ _ _ _ _
    · exact not_fieldIsOpen_setField _ _ _ _ _
  | method source method =>
    rcases defineMethod_cases h with ⟨hclosed, rfl⟩ | ⟨-, next, -, rfl⟩
    · exact hclosed
    · intro hopen
      have hset := Renames.methodName?_setMethodName_self p.renames source.name method.key
        (numberedName settings.methodPrefix p.nextMember method.name)
      cases hset.symm.trans hopen.2.1

/-- No member is open after the definition pass. -/
theorem definitionPass_closes {conventions : Conventions} {hierarchy : Hierarchy}
    {settings : Settings} {classes : List SourceClass} {p p' : Progress}
    (h : definitionPass conventions hierarchy settings classes p = some p') {slot : Slot}
    (hslot : slot ∈ slots conventions settings classes) :
    ¬slot.IsOpen hierarchy settings p'.renames := by
  unfold definitionPass at h
  obtain ⟨q, hq, hp⟩ := Option.bind_eq_some_iff.mp h
  cases hp
  rw [foldlM_defineClass_eq] at hq
  obtain ⟨r, r', -, hstep, hkeeps⟩ := foldlM_through
    (R := fun p q => KeepsNames p.renames q.renames) (fun p => KeepsNames.refl p.renames)
    (fun hpq hqr => hpq.trans hqr) (fun p p' slot _ => defineSlot_keepsNames) hslot hq
  exact fun hopen => defineSlot_closes hstep (Slot.isOpen_of_keepsNames hkeeps hopen)

/-! ## Overriding methods -/

/-- As long as a class has no name for a method, no known ancestor of it has one. -/
def UnnamedLine (hierarchy : Hierarchy) (name : String) (key : MethodKey) (renames : Renames) :
    Prop :=
  renames.methodName? name key = none →
    ∀ ancestor, hierarchy.KnownAncestor name ancestor → renames.methodName? ancestor key = none

section Overriding

variable {hierarchy : Hierarchy} {classes : List SourceClass}
  (hdescribes : hierarchy.Describes classes)

include hdescribes

/-- An ancestor takes its name from an ancestor of its own, which is one of the class
    too unless it is the class itself. So no name enters a line without one. -/
theorem propagateMethod_keepsUnnamedLine {source : SourceClass} (hsource : source ∈ classes)
    (p : Progress) (method : SourceMember) {name : String} {key : MethodKey}
    (h : UnnamedLine hierarchy name key p.renames) :
    UnnamedLine hierarchy name key (propagateMethod hierarchy source p method).renames := by
  obtain ⟨asked, ⟨-, heq⟩ | ⟨hmay, newName, hfound, heq⟩⟩ :=
    propagateMethod_cases hierarchy source p method
  · rw [heq]
    exact h
  · rw [heq]
    show UnnamedLine hierarchy name key (p.renames.setMethodName source.name method.key newName)
    intro hnone ancestor hancestor
    rw [Renames.methodName?_setMethodName] at hnone ⊢
    split_ifs at hnone with hself
    have hline := h hnone
    split_ifs with hwritten
    · obtain ⟨rfl, rfl⟩ := hwritten
      obtain ⟨giver, hgiver, hname⟩ := exists_ancestor_of_findInherited hdescribes hsource hfound
      by_cases hgives : giver = name
      · rw [hgives, hnone] at hname
        cases hname
      · have hbelow := hancestor.below.trans hgiver.below
        rw [hline giver ⟨hbelow, hgives, hgiver.known⟩] at hname
        cases hname
    · exact hline ancestor hancestor

/-- After its turn a method that overrides another has a name or its line has
    none. -/
theorem propagateMethod_unnamedLine {source : SourceClass} (hsource : source ∈ classes)
    (p : Progress) {method : SourceMember}
    (hinherits : hierarchy.inherits source.shape method.key = true) :
    UnnamedLine hierarchy source.name method.key
      (propagateMethod hierarchy source p method).renames := by
  obtain ⟨asked, ⟨hleft, heq⟩ | ⟨hmay, newName, -, heq⟩⟩ :=
    propagateMethod_cases hierarchy source p method
  · rw [heq]
    intro hnone
    exact (findInherited_eq_none_iff hdescribes hsource p.renames method.key).mp
      (hleft ⟨hinherits, hnone⟩)
  · rw [heq]
    intro hnone
    have hset := Renames.methodName?_setMethodName_self p.renames source.name method.key newName
    cases hset.symm.trans hnone

/-- After the pass a method that overrides another and has no name finds none. -/
theorem foldl_propagateClass_settles (p : Progress) {source : SourceClass}
    (hsource : source ∈ classes) {method : SourceMember} (hmethod : method ∈ source.methods)
    (hmay : MethodMayInherit hierarchy source
      (classes.foldl (propagateClass hierarchy) p).renames method) :
    (findInherited hierarchy (classes.foldl (propagateClass hierarchy) p).renames source
      method.key).found = none := by
  rw [findInherited_eq_none_iff hdescribes hsource]
  rw [foldl_propagateClass_eq] at hmay ⊢
  obtain ⟨q, -, hkeeps⟩ := foldl_through
    (R := fun p q => UnnamedLine hierarchy source.name method.key p.renames →
      UnnamedLine hierarchy source.name method.key q.renames)
    (fun _ => id) (fun hpq hqr => hqr ∘ hpq)
    (fun p slot hslot => propagateMethod_keepsUnnamedLine hdescribes
      (mem_declaredMethods.mp hslot).1 p slot.2)
    (mem_declaredMethods.mpr ⟨hsource, hmethod⟩) p
  exact hkeeps (propagateMethod_unnamedLine hdescribes hsource q hmay.1) hmay.2

end Overriding

/-! ## Runs -/

/-- Renames in which a run over these classes finds nothing to do. -/
structure Settled (conventions : Conventions) (hierarchy : Hierarchy) (settings : Settings)
    (classes : List SourceClass) (renames : Renames) : Prop where
  ruled : ∀ owner field newName,
    ruleName? settings.fieldRules (declaredFields classes) owner field = some newName →
      renames.fieldName? owner field = some newName ∧ FieldIsComplete renames owner field
  constants : settings.recoverEnumConstants = true → ∀ source ∈ classes, ∀ bindings,
    EnumConstants.ofClass source = .ok bindings → ∀ binding ∈ bindings,
      FieldIsComplete renames source.name binding.1
  classNames : settings.classes.isSome → ∀ source ∈ classes,
    (renames.className? source.name).isSome
  members : ∀ slot ∈ slots conventions settings classes, ¬slot.IsOpen hierarchy settings renames
  overriding : settings.mapMethods = true → ∀ source ∈ classes, ∀ method ∈ source.methods,
    MethodMayInherit hierarchy source renames method →
      (findInherited hierarchy renames source method.key).found = none

theorem rulesPass_ruled {settings : Settings} {classes : List SourceClass}
    {owner field newName : String}
    (h : ruleName? settings.fieldRules (declaredFields classes) owner field = some newName)
    (p : Progress) :
    (rulesPass settings classes p).renames.fieldName? owner field = some newName ∧
      FieldIsComplete (rulesPass settings classes p).renames owner field := by
  have hname : (rulesPass settings classes p).renames.fieldName? owner field = some newName := by
    rw [fieldName?_rulesPass, h]
    rfl
  exact ⟨hname, Option.isSome_of_eq_some hname,
    isSome_fieldDescriptor?_rulesPass (Option.isSome_of_eq_some h) p⟩

/-- A run leaves nothing to do for another over the same classes. -/
theorem run_settled {conventions : Conventions} {hierarchy : Hierarchy} {settings : Settings}
    {classes : List SourceClass} {renames : Renames} {p : Progress}
    (hdescribes : hierarchy.Describes (classesInOrder conventions settings classes))
    (h : run conventions hierarchy settings classes renames = some p) :
    Settled conventions hierarchy settings (classesInOrder conventions settings classes)
      p.renames := by
  obtain ⟨named, defined, hnamed, hdefined, rfl⟩ := run_eq_some_iff.mp h
  set ordered := classesInOrder conventions settings classes
  set ruled := rulesPass settings ordered (start settings renames)
  have hall : ∀ source ∈ ordered, TakesPart settings classes source.name :=
    fun source hsource => takesPart_of_mem hsource
  -- What each pass settles is kept by the passes after it.
  have hlast := (propagationPass_adds hall hierarchy settings defined).keepsNames
  have hfromNamed := (definitionPass_adds hall hdefined).keepsNames.trans hlast
  have hfromRecovered := (classesPass_adds hall hnamed).keepsNames.trans hfromNamed
  have hfromRuled := (constantsPass_adds hall settings ruled).keepsNames.trans hfromRecovered
  refine ⟨?_, ?_, ?_, ?_, ?_⟩
  · intro owner field newName hrule
    obtain ⟨hname, hcomplete⟩ := rulesPass_ruled hrule (start settings renames)
    exact ⟨hfromRuled.fieldName owner field newName hname, hcomplete.mono hfromRuled⟩
  · intro hrecover source hsource bindings hbindings binding hbinding
    exact (constantsPass_completes hrecover hsource hbindings hbinding ruled).mono hfromRecovered
  · intro hclasses source hsource
    exact hfromNamed.isSome_className? (classesPass_names hnamed hclasses hsource)
  · intro slot hslot hopen
    exact definitionPass_closes hdefined hslot (Slot.isOpen_of_keepsNames hlast hopen)
  · intro hmethods source hsource method hmethod hmay
    have hpass : (propagationPass hierarchy settings ordered defined).renames =
        (ordered.foldl (propagateClass hierarchy) defined).renames := by
      rw [propagationPass, if_pos hmethods]
      rfl
    rw [hpass] at hmay ⊢
    exact foldl_propagateClass_settles hdescribes defined hsource hmethod hmay

end Nomenclator.Progress
