import Nomenclator.Proofs.Frame

/-!
# A run reports every name it gives

After the field rules a run names only what has no name, and each name it gives
leaves one event behind.

Results:
* `Reported.name`: a step that names something without a name and reports it keeps
  the account of names complete.
* `run_reported`: in the end the names are those that the field rules left and those
  that events report, and no others.
-/

namespace Nomenclator

/-! ## Names of all kinds -/

/-- Something that can have a new name. -/
inductive Item where
  | ofClass (name : String)
  | ofField (owner name : String)
  | ofMethod (owner : String) (key : MethodKey)
  deriving DecidableEq

namespace Renames

/-- The new name of a class, a field or a method. -/
def nameOf? (renames : Renames) : Item → Option String
  | .ofClass name => renames.className? name
  | .ofField owner name => renames.fieldName? owner name
  | .ofMethod owner key => renames.methodName? owner key

theorem nameOf?_setFieldName (renames : Renames) (owner name : String)
    (descriptor : Option String) (newName : String) (item : Item) :
    (renames.setFieldName owner name descriptor newName).nameOf? item =
      if item = .ofField owner name then some newName else renames.nameOf? item := by
  cases item with
  | ofClass c => simp [nameOf?, setFieldName]
  | ofField c f => simp [nameOf?, fieldName?_setFieldName]
  | ofMethod c k => simp [nameOf?, methodName?, setFieldName]

theorem nameOf?_enterField (renames : Renames) (owner name : String)
    (descriptor : Option String) (item : Item) :
    (renames.enterField owner name descriptor).nameOf? item = renames.nameOf? item := by
  cases item with
  | ofClass c => simp [nameOf?, enterField]
  | ofField c f => simp [nameOf?]
  | ofMethod c k => simp [nameOf?, methodName?, enterField]

theorem nameOf?_setMethodName (renames : Renames) (owner : String) (key : MethodKey)
    (newName : String) (item : Item) :
    (renames.setMethodName owner key newName).nameOf? item =
      if item = .ofMethod owner key then some newName else renames.nameOf? item := by
  cases item with
  | ofClass c => simp [nameOf?, setMethodName]
  | ofField c f => simp [nameOf?, fieldName?, setMethodName]
  | ofMethod c k => simp [nameOf?, methodName?_setMethodName]

theorem nameOf?_setClassName (renames : Renames) (name newName : String) (item : Item) :
    (renames.setClassName name newName).nameOf? item =
      if item = .ofClass name then some newName else renames.nameOf? item := by
  cases item with
  | ofClass c => simp [nameOf?, className?_setClassName]
  | ofField c f => simp [nameOf?, fieldName?]
  | ofMethod c k => simp [nameOf?, methodName?]

end Renames

/-- What an event reports to have been named, other than by a rule. -/
def Event.named? : Event → Option (Item × String)
  | .constantRecovered className field newName => some (.ofField className field, newName)
  | .classNamed className newName => some (.ofClass className, newName)
  | .fieldNamed className field newName => some (.ofField className field, newName)
  | .methodNamed className key newName => some (.ofMethod className key, newName)
  | .methodInherited className key newName => some (.ofMethod className key, newName)
  | _ => none

namespace Progress

/-! ## The account of names -/

/-- The names are those of `base` and those that events report. -/
def Reported (base : Renames) (p : Progress) : Prop :=
  ∀ item newName, p.renames.nameOf? item = some newName ↔
    base.nameOf? item = some newName ∨ ∃ event ∈ p.log, event.named? = some (item, newName)

namespace Reported

variable {base : Renames} {p q : Progress}

/-- A step that gives no name and reports none. -/
theorem keep (h : Reported base p)
    (hrenames : ∀ item, q.renames.nameOf? item = p.renames.nameOf? item)
    (hlog : ∀ event item newName, event.named? = some (item, newName) →
      (event ∈ q.log ↔ event ∈ p.log)) : Reported base q := by
  intro item newName
  rw [hrenames, h]
  apply or_congr_right
  constructor
  · rintro ⟨event, hmem, hnamed⟩
    exact ⟨event, (hlog event item newName hnamed).mpr hmem, hnamed⟩
  · rintro ⟨event, hmem, hnamed⟩
    exact ⟨event, (hlog event item newName hnamed).mp hmem, hnamed⟩

theorem note (h : Reported base p) {event : Event} (hevent : event.named? = none) :
    Reported base (p.note event) := by
  refine h.keep (fun _ => rfl) fun other item newName hother => ?_
  have hne : other ≠ event := by
    rintro rfl
    rw [hevent] at hother
    cases hother
  exact Array.mem_push.trans (or_iff_left hne)

theorem noteAsked (h : Reported base p) (names : List String) :
    Reported base (p.noteAsked names) := by
  refine h.keep (fun _ => rfl) fun event item newName hevent => ?_
  have hnot : event ∉ (names.map Event.asked).toArray := by
    intro hmem
    obtain ⟨name, -, rfl⟩ := List.mem_map.mp (List.mem_toArray.mp hmem)
    cases hevent
  exact Array.mem_append.trans (or_iff_left hnot)

/-- A step that names something without a name and reports it. -/
theorem name (h : Reported base p) (target : Item) {newName : String} {event : Event}
    (hnone : p.renames.nameOf? target = none)
    (hrenames : ∀ item, q.renames.nameOf? item =
      if item = target then some newName else p.renames.nameOf? item)
    (hlog : q.log = p.log.push event) (hevent : event.named? = some (target, newName)) :
    Reported base q := by
  -- Only the new event reports the target, which had no name.
  have hfresh : ∀ n, ¬(base.nameOf? target = some n ∨
      ∃ e ∈ p.log, e.named? = some (target, n)) := by
    intro n hn
    rw [← h, hnone] at hn
    cases hn
  intro item n
  rw [hrenames, hlog]
  split_ifs with hitem
  · rw [hitem]
    constructor
    · intro hn
      cases hn
      exact Or.inr ⟨event, Array.mem_push_self, hevent⟩
    · rintro (hbase | ⟨e, hmem, hnamed⟩)
      · exact absurd (Or.inl hbase) (hfresh n)
      · rcases Array.mem_push.mp hmem with hmem | rfl
        · exact absurd (Or.inr ⟨e, hmem, hnamed⟩) (hfresh n)
        · rw [hevent] at hnamed
          cases hnamed
          rfl
  · rw [h]
    apply or_congr_right
    constructor
    · rintro ⟨e, hmem, hnamed⟩
      exact ⟨e, Array.mem_push_of_mem _ hmem, hnamed⟩
    · rintro ⟨e, hmem, hnamed⟩
      rcases Array.mem_push.mp hmem with hmem | rfl
      · exact ⟨e, hmem, hnamed⟩
      · rw [hevent] at hnamed
        cases hnamed
        exact absurd rfl hitem

end Reported

/-! ## Steps -/

section Steps

variable {base : Renames}

theorem bindConstant_reported (className : String) (p : Progress) (field constant : String)
    (h : Reported base p) : Reported base (bindConstant className p (field, constant)) := by
  rcases bindConstant_cases className p field constant with ⟨-, heq⟩ | ⟨hnone, heq⟩
  · rw [heq]
    exact h.keep (Renames.nameOf?_enterField _ _ _ _) fun _ _ _ _ => Iff.rfl
  · rw [heq]
    exact h.name (.ofField _ _) hnone (Renames.nameOf?_setFieldName _ _ _ _ _) rfl rfl

theorem nameClass_reported {conventions : Conventions} {naming : ClassNaming} {p p' : Progress}
    {source : SourceClass} (hstep : nameClass conventions naming p source = some p')
    (h : Reported base p) : Reported base p' := by
  rcases nameClass_cases hstep with ⟨-, rfl⟩ | ⟨hnone, id, -, rfl⟩
  · exact h
  · exact h.name (.ofClass _) hnone (Renames.nameOf?_setClassName _ _ _) rfl rfl

theorem defineSlot_reported {conventions : Conventions} {hierarchy : Hierarchy}
    {settings : Settings} {p p' : Progress} {slot : Slot}
    (hstep : defineSlot conventions hierarchy settings p slot = some p') (h : Reported base p) :
    Reported base p' := by
  cases slot with
  | field source field =>
    rcases defineField_cases hstep with ⟨-, rfl⟩ | ⟨hopen, -, rfl⟩ | ⟨hopen, -, next, -, rfl⟩
    · exact h
    · exact h.name (.ofField _ _) hopen.1 (Renames.nameOf?_setFieldName _ _ _ _ _) rfl rfl
    · exact h.name (.ofField _ _) hopen.1 (Renames.nameOf?_setFieldName _ _ _ _ _) rfl rfl
  | method source method =>
    rcases defineMethod_cases hstep with ⟨-, rfl⟩ | ⟨hopen, next, -, rfl⟩
    · exact h.noteAsked _
    · exact (h.noteAsked _).name (.ofMethod _ _) hopen.2.1
        (Renames.nameOf?_setMethodName _ _ _ _) rfl rfl

theorem propagateMethod_reported (hierarchy : Hierarchy) (source : SourceClass) (p : Progress)
    (method : SourceMember) (h : Reported base p) :
    Reported base (propagateMethod hierarchy source p method) := by
  obtain ⟨asked, ⟨-, heq⟩ | ⟨hmay, newName, -, heq⟩⟩ :=
    propagateMethod_cases hierarchy source p method
  · rw [heq]
    exact h.noteAsked asked
  · rw [heq]
    exact (h.noteAsked asked).name (.ofMethod _ _) hmay.2
      (Renames.nameOf?_setMethodName _ _ _ _) rfl rfl

end Steps

/-! ## Runs -/

/-- Rules report nothing but themselves. -/
theorem rulesPass_reported (settings : Settings) (classes : List SourceClass)
    (renames : Renames) :
    Reported (rulesPass settings classes (start settings renames)).renames
      (rulesPass settings classes (start settings renames)) := by
  have hlog : ∀ event ∈ (rulesPass settings classes (start settings renames)).log,
      event.named? = none := by
    apply rulesPass_rel (R := fun p q =>
      (∀ event ∈ p.log, event.named? = none) → ∀ event ∈ q.log, event.named? = none)
    · exact fun p => id
    · exact fun hpq hqr => hqr ∘ hpq
    · intro p source _ field _ h
      unfold applyRules
      split
      · intro event hevent
        rcases Array.mem_push.mp hevent with hevent | rfl
        · exact h event hevent
        · rfl
      · exact h
    · intro event hevent
      exact absurd hevent (Array.not_mem_empty event)
  intro item newName
  refine (or_iff_left ?_).symm
  rintro ⟨event, hmem, hnamed⟩
  rw [hlog event hmem] at hnamed
  cases hnamed

/-- In the end of a run the names are those that the field rules left and those that
    events report. -/
theorem run_reported {conventions : Conventions} {hierarchy : Hierarchy} {settings : Settings}
    {classes : List SourceClass} {renames : Renames} {p : Progress}
    (h : run conventions hierarchy settings classes renames = some p) :
    Reported (rulesPass settings (classesInOrder conventions settings classes)
      (start settings renames)).renames p := by
  obtain ⟨named, defined, hnamed, hdefined, rfl⟩ := run_eq_some_iff.mp h
  set ordered := classesInOrder conventions settings classes
  set base := (rulesPass settings ordered (start settings renames)).renames
  have hruled := rulesPass_reported settings ordered renames
  have hrecovered : Reported base (constantsPass settings ordered
      (rulesPass settings ordered (start settings renames))) := by
    refine constantsPass_rel (R := fun p q => Reported base p → Reported base q) (fun _ => id)
      (fun hpq hqr => hqr ∘ hpq) ?_ ?_ _ hruled
    · exact fun _ p source _ _ _ binding _ => bindConstant_reported source.name p _ _
    · exact fun p source _ cause hp => hp.note rfl
  have hclasses : Reported base named := by
    refine classesPass_rel (R := fun p q => Reported base p → Reported base q) (fun _ => id)
      (fun hpq hqr => hqr ∘ hpq) ?_ hnamed hrecovered
    exact fun naming _ p p' source _ => nameClass_reported
  have hmembers : Reported base defined := by
    refine definitionPass_rel (R := fun p q => Reported base p → Reported base q) (fun _ => id)
      (fun hpq hqr => hqr ∘ hpq) ?_ ?_ hdefined hclasses
    · exact fun p p' slot _ => defineSlot_reported
    · exact fun p _ _ _ hp => hp.note rfl
  refine propagationPass_rel (R := fun p q => Reported base p → Reported base q) (fun _ => id)
    (fun hpq hqr => hqr ∘ hpq) ?_ ?_ _ hmembers
  · exact fun p source _ method _ => propagateMethod_reported hierarchy source p method
  · exact fun p _ hp => hp.note rfl

end Progress

end Nomenclator
