import Nomenclator.Proofs.Steps

/-!
# Counters and the events that record numbers

A run has two counters, one for members and one for classes. Only the definition
pass advances the first and only the pass that names classes the second, and
each number that is handed out leaves one event behind.

Results:
* `KeepsMembers`, `KeepsClasses`: a step that touches neither a counter nor the
  events of its numbers. `rulesPass_keepsNumbers` and its siblings say which
  passes these are.
* `defineSlot_numbers`, `nameClass_numbers`: a step that hands out a number hands
  out the one the counter shows.
* `run_ends`: a run whose counters have room for all members and classes ends.
-/

namespace Nomenclator

/-! ## Events that record numbers -/

/-- The event records the number of a member. A field that is the array of an
    enumeration's constants has a fixed name and no number. -/
def Event.numbersMember : Event → Bool
  | .fieldNamed _ _ newName => newName ≠ Progress.valuesName
  | .methodNamed .. => true
  | _ => false

/-- The event records the number of a class. -/
def Event.numbersClass : Event → Bool
  | .classNamed .. => true
  | _ => false

namespace Progress

/-- The events that record the numbers of members, in order. -/
def memberEvents (p : Progress) : List Event := p.log.toList.filter Event.numbersMember

/-- The events that record the numbers of classes, in order. -/
def classEvents (p : Progress) : List Event := p.log.toList.filter Event.numbersClass

@[simp] theorem memberEvents_note (p : Progress) (event : Event) :
    (p.note event).memberEvents = p.memberEvents ++ [event].filter Event.numbersMember := by
  simp [memberEvents, note]

@[simp] theorem classEvents_note (p : Progress) (event : Event) :
    (p.note event).classEvents = p.classEvents ++ [event].filter Event.numbersClass := by
  simp [classEvents, note]

theorem filter_asked_eq_nil {f : Event → Bool} (hf : ∀ name, f (.asked name) = false)
    (names : List String) : (names.map Event.asked).filter f = [] := by
  rw [List.filter_eq_nil_iff]
  intro event hevent
  obtain ⟨name, -, rfl⟩ := List.mem_map.mp hevent
  simp [hf]

@[simp] theorem memberEvents_noteAsked (p : Progress) (names : List String) :
    (p.noteAsked names).memberEvents = p.memberEvents := by
  simp [memberEvents, noteAsked, filter_asked_eq_nil (f := Event.numbersMember) fun _ => rfl]

@[simp] theorem classEvents_noteAsked (p : Progress) (names : List String) :
    (p.noteAsked names).classEvents = p.classEvents := by
  simp [classEvents, noteAsked, filter_asked_eq_nil (f := Event.numbersClass) fun _ => rfl]

/-! ## Steps that hand out no number -/

/-- Neither the counter of members nor its events have changed. -/
structure KeepsMembers (p q : Progress) : Prop where
  next : q.nextMember = p.nextMember
  events : q.memberEvents = p.memberEvents

/-- Neither the counter of classes nor its events have changed. -/
structure KeepsClasses (p q : Progress) : Prop where
  next : q.nextClass = p.nextClass
  events : q.classEvents = p.classEvents

theorem KeepsMembers.refl (p : Progress) : KeepsMembers p p := ⟨rfl, rfl⟩

theorem KeepsMembers.trans {p q r : Progress} (hpq : KeepsMembers p q) (hqr : KeepsMembers q r) :
    KeepsMembers p r :=
  ⟨hqr.next.trans hpq.next, hqr.events.trans hpq.events⟩

theorem KeepsClasses.refl (p : Progress) : KeepsClasses p p := ⟨rfl, rfl⟩

theorem KeepsClasses.trans {p q r : Progress} (hpq : KeepsClasses p q) (hqr : KeepsClasses q r) :
    KeepsClasses p r :=
  ⟨hqr.next.trans hpq.next, hqr.events.trans hpq.events⟩

/-- Neither counter and none of their events have changed. -/
def KeepsNumbers (p q : Progress) : Prop := KeepsMembers p q ∧ KeepsClasses p q

theorem KeepsNumbers.refl (p : Progress) : KeepsNumbers p p :=
  ⟨KeepsMembers.refl p, KeepsClasses.refl p⟩

theorem KeepsNumbers.trans {p q r : Progress} (hpq : KeepsNumbers p q) (hqr : KeepsNumbers q r) :
    KeepsNumbers p r :=
  ⟨hpq.1.trans hqr.1, hpq.2.trans hqr.2⟩

/-- An event that records no number changes no number. -/
theorem KeepsNumbers.note (p : Progress) {event : Event} (hmember : event.numbersMember = false)
    (hclass : event.numbersClass = false) : KeepsNumbers p (p.note event) :=
  ⟨⟨rfl, by simp [hmember]⟩, ⟨rfl, by simp [hclass]⟩⟩

theorem KeepsNumbers.noteAsked (p : Progress) (names : List String) :
    KeepsNumbers p (p.noteAsked names) :=
  ⟨⟨rfl, by simp⟩, ⟨rfl, by simp⟩⟩

/-- New renames and tallies change no number. -/
theorem KeepsNumbers.update (p : Progress) (renames : Renames) (tally : Tally) :
    KeepsNumbers p { p with renames, tally } :=
  ⟨⟨rfl, rfl⟩, ⟨rfl, rfl⟩⟩

theorem applyRules_keepsNumbers (rules : List FieldRule) (source : SourceClass) (p : Progress)
    (field : SourceMember) : KeepsNumbers p (applyRules rules source p field) := by
  unfold applyRules
  split
  · exact (KeepsNumbers.update p _ _).trans (KeepsNumbers.note _ rfl rfl)
  · exact KeepsNumbers.refl p

theorem bindConstant_keepsNumbers (className : String) (p : Progress) (field constant : String) :
    KeepsNumbers p (bindConstant className p (field, constant)) := by
  rcases bindConstant_cases className p field constant with ⟨-, heq⟩ | ⟨-, heq⟩
  · rw [heq]
    exact KeepsNumbers.update p _ p.tally
  · rw [heq]
    exact (KeepsNumbers.update p _ _).trans (KeepsNumbers.note _ rfl rfl)

theorem propagateMethod_keepsNumbers (hierarchy : Hierarchy) (source : SourceClass)
    (p : Progress) (method : SourceMember) :
    KeepsNumbers p (propagateMethod hierarchy source p method) := by
  obtain ⟨asked, ⟨-, heq⟩ | ⟨-, newName, -, heq⟩⟩ :=
    propagateMethod_cases hierarchy source p method
  · rw [heq]
    exact KeepsNumbers.noteAsked p asked
  · rw [heq]
    exact ((KeepsNumbers.noteAsked p asked).trans (KeepsNumbers.update _ _ _)).trans
      (KeepsNumbers.note _ rfl rfl)

theorem rulesPass_keepsNumbers (settings : Settings) (classes : List SourceClass)
    (p : Progress) : KeepsNumbers p (rulesPass settings classes p) := by
  apply rulesPass_rel KeepsNumbers.refl KeepsNumbers.trans
  exact fun q source _ field _ => applyRules_keepsNumbers _ source q field

theorem constantsPass_keepsNumbers (settings : Settings) (classes : List SourceClass)
    (p : Progress) : KeepsNumbers p (constantsPass settings classes p) := by
  apply constantsPass_rel KeepsNumbers.refl KeepsNumbers.trans
  · exact fun _ q source _ _ _ binding _ => bindConstant_keepsNumbers source.name q _ _
  · exact fun q source _ cause => KeepsNumbers.note q rfl rfl

theorem propagationPass_keepsNumbers (hierarchy : Hierarchy) (settings : Settings)
    (classes : List SourceClass) (p : Progress) :
    KeepsNumbers p (propagationPass hierarchy settings classes p) := by
  apply propagationPass_rel KeepsNumbers.refl KeepsNumbers.trans
  · exact fun q source _ method _ => propagateMethod_keepsNumbers hierarchy source q method
  · exact fun q methods => KeepsNumbers.note q rfl rfl

/-! ## Steps that hand out a number -/

/-- The event that records the number of a declared member. -/
def Slot.event (settings : Settings) : Slot → Nat → Event
  | .field source member, id =>
    .fieldNamed source.name member.name (numberedName settings.fieldPrefix id member.name)
  | .method source member, id =>
    .methodNamed source.name member.key (numberedName settings.methodPrefix id member.name)

/-- The event that records the number of a class. -/
def classEvent (naming : ClassNaming) (source : SourceClass) (id : Nat) : Event :=
  .classNamed source.name (newClassName naming id source.name)

theorem numberedName_ne_valuesName (lead : String) (id : Nat) (oldName : String) :
    numberedName lead id oldName ≠ valuesName := by
  intro h
  have hmem : '_' ∈ (numberedName lead id oldName).toList := by
    simp [numberedName]
  rw [h] at hmem
  revert hmem
  decide

@[simp] theorem Slot.numbersMember_event (settings : Settings) (slot : Slot) (id : Nat) :
    (slot.event settings id).numbersMember = true := by
  cases slot with
  | field source member => simp [Slot.event, Event.numbersMember, numberedName_ne_valuesName]
  | method source member => rfl

theorem Slot.filter_push_event (settings : Settings) (slot : Slot) (id : Nat)
    (log : Array Event) :
    (log.push (slot.event settings id)).toList.filter Event.numbersMember =
      log.toList.filter Event.numbersMember ++ [slot.event settings id] := by
  simp

/-- Looking at a declared member hands out no number or the next one, and records
    it. -/
theorem defineSlot_numbers {conventions : Conventions} {hierarchy : Hierarchy}
    {settings : Settings} {p p' : Progress} {slot : Slot}
    (h : defineSlot conventions hierarchy settings p slot = some p') :
    KeepsMembers p p' ∨
      (conventions.advance p.nextMember = some p'.nextMember ∧
        p'.memberEvents = p.memberEvents ++ [slot.event settings p.nextMember]) := by
  cases slot with
  | field source member =>
    rcases defineField_cases h with ⟨-, rfl⟩ | ⟨-, -, rfl⟩ | ⟨-, -, next, hnext, rfl⟩
    · exact Or.inl (KeepsMembers.refl _)
    · refine Or.inl ⟨rfl, (memberEvents_note _ _).trans ?_⟩
      simp [Event.numbersMember, memberEvents]
    · exact Or.inr ⟨hnext, Slot.filter_push_event settings (.field source member) _ _⟩
  | method source member =>
    rcases defineMethod_cases h with ⟨-, rfl⟩ | ⟨-, next, hnext, rfl⟩
    · exact Or.inl (KeepsNumbers.noteAsked p _).1
    · refine Or.inr ⟨hnext, ?_⟩
      rw [← memberEvents_noteAsked p (askedFor hierarchy source member)]
      exact Slot.filter_push_event settings (.method source member) _ _

theorem defineSlot_keepsClasses {conventions : Conventions} {hierarchy : Hierarchy}
    {settings : Settings} {p p' : Progress} {slot : Slot}
    (h : defineSlot conventions hierarchy settings p slot = some p') : KeepsClasses p p' := by
  cases slot with
  | field source member =>
    rcases defineField_cases h with ⟨-, rfl⟩ | ⟨-, -, rfl⟩ | ⟨-, -, next, -, rfl⟩
    · exact KeepsClasses.refl _
    · exact ⟨rfl, (classEvents_note _ _).trans (List.append_nil _)⟩
    · exact ⟨rfl, (classEvents_note _ _).trans (List.append_nil _)⟩
  | method source member =>
    rcases defineMethod_cases h with ⟨-, rfl⟩ | ⟨-, next, -, rfl⟩
    · exact (KeepsNumbers.noteAsked p _).2
    · refine ⟨rfl, ((classEvents_note _ _).trans (List.append_nil _)).trans ?_⟩
      exact classEvents_noteAsked p _

/-- Naming a class hands out no number or the one after the counter, and records
    it. -/
theorem nameClass_numbers {conventions : Conventions} {naming : ClassNaming} {p p' : Progress}
    {source : SourceClass} (h : nameClass conventions naming p source = some p') :
    KeepsClasses p p' ∨
      (conventions.advance p.nextClass = some p'.nextClass ∧
        p'.classEvents = p.classEvents ++ [classEvent naming source p'.nextClass]) := by
  rcases nameClass_cases h with ⟨-, rfl⟩ | ⟨-, id, hid, rfl⟩
  · exact Or.inl (KeepsClasses.refl _)
  · exact Or.inr ⟨hid, classEvents_note _ _⟩

theorem nameClass_keepsMembers {conventions : Conventions} {naming : ClassNaming}
    {p p' : Progress} {source : SourceClass}
    (h : nameClass conventions naming p source = some p') : KeepsMembers p p' := by
  rcases nameClass_cases h with ⟨-, rfl⟩ | ⟨-, id, -, rfl⟩
  · exact KeepsMembers.refl _
  · exact ⟨rfl, (memberEvents_note _ _).trans (List.append_nil _)⟩

theorem classesPass_keepsMembers {conventions : Conventions} {settings : Settings}
    {classes : List SourceClass} {p p' : Progress}
    (h : classesPass conventions settings classes p = some p') : KeepsMembers p p' := by
  apply classesPass_rel KeepsMembers.refl KeepsMembers.trans _ h
  exact fun naming _ q q' source _ => nameClass_keepsMembers

theorem definitionPass_keepsClasses {conventions : Conventions} {hierarchy : Hierarchy}
    {settings : Settings} {classes : List SourceClass} {p p' : Progress}
    (h : definitionPass conventions hierarchy settings classes p = some p') :
    KeepsClasses p p' := by
  apply definitionPass_rel KeepsClasses.refl KeepsClasses.trans _ _ h
  · exact fun q q' slot _ => defineSlot_keepsClasses
  · exact fun q fields methods next => (KeepsNumbers.note q rfl rfl).2

/-! ## Runs that end -/

/-- How many members the classes declare. -/
def memberCount (classes : List SourceClass) : Nat :=
  (classes.map fun source => source.fields.length + source.methods.length).sum

theorem memberCount_classesInOrder_le (conventions : Conventions) (settings : Settings)
    (classes : List SourceClass) :
    memberCount (classesInOrder conventions settings classes) ≤ memberCount classes := by
  unfold memberCount classesInOrder
  rw [((List.mergeSort_perm _ _).map _).sum_eq]
  exact (List.filter_sublist.map _).sum_le_sum fun _ _ => Nat.zero_le _

theorem length_classesInOrder_le (conventions : Conventions) (settings : Settings)
    (classes : List SourceClass) :
    (classesInOrder conventions settings classes).length ≤ classes.length := by
  rw [classesInOrder, List.length_mergeSort]
  exact List.length_filter_le _ _

theorem length_slots_le (conventions : Conventions) (settings : Settings)
    (classes : List SourceClass) :
    (slots conventions settings classes).length ≤ memberCount classes := by
  induction classes with
  | nil => exact Nat.le_refl 0
  | cons source classes ih =>
    have hfields : (if settings.mapFields then
        (membersInOrder conventions source.fields).map (Slot.field source) else []).length ≤
          source.fields.length := by
      split_ifs <;> simp [membersInOrder]
    have hmethods : (if settings.mapMethods then
        (membersInOrder conventions source.methods).map (Slot.method source) else []).length ≤
          source.methods.length := by
      split_ifs <;> simp [membersInOrder]
    rw [slots, List.flatMap_cons, List.length_append, slotsOf, List.length_append, memberCount,
      List.map_cons, List.sum_cons]
    unfold slots memberCount at ih
    omega

theorem advance32_of_lt {n : Nat} (h : n < 4294967295) :
    Conventions.advance32 n = some (n + 1) := if_pos h

theorem nameClass_exists {naming : ClassNaming} {p : Progress} (source : SourceClass)
    (h : p.nextClass < 4294967295) :
    ∃ p', nameClass .standard naming p source = some p' ∧ p'.nextClass ≤ p.nextClass + 1 := by
  have hadvance : Conventions.standard.advance p.nextClass = some (p.nextClass + 1) :=
    advance32_of_lt h
  unfold nameClass
  split_ifs
  · exact ⟨p, rfl, Nat.le_succ _⟩
  · rw [hadvance]
    exact ⟨_, rfl, Nat.le_refl _⟩

theorem takeMember_of_lt {p : Progress} (h : p.nextMember < 4294967295) :
    p.takeMember .standard = some (p.nextMember, { p with nextMember := p.nextMember + 1 }) := by
  have hadvance : Conventions.standard.advance p.nextMember = some (p.nextMember + 1) :=
    advance32_of_lt h
  unfold takeMember
  rw [hadvance]
  rfl

theorem defineSlot_exists {hierarchy : Hierarchy} {settings : Settings} {p : Progress}
    (slot : Slot) (h : p.nextMember < 4294967295) :
    ∃ p', defineSlot .standard hierarchy settings p slot = some p' ∧
      p'.nextMember ≤ p.nextMember + 1 := by
  cases slot with
  | field source member =>
    simp only [defineSlot]
    unfold defineField
    split_ifs
    · exact ⟨p, rfl, Nat.le_succ _⟩
    · exact ⟨_, rfl, Nat.le_succ _⟩
    · rw [takeMember_of_lt h]
      exact ⟨_, rfl, Nat.le_refl _⟩
  | method source member =>
    have hasked : (p.noteAsked (askedFor hierarchy source member)).takeMember .standard =
        some (p.nextMember, _) := takeMember_of_lt h
    simp only [defineSlot]
    unfold defineMethod
    dsimp only
    split_ifs
    · exact ⟨_, rfl, Nat.le_succ _⟩
    · unfold askedFor at hasked
      rw [hasked]
      exact ⟨_, rfl, Nat.le_refl _⟩

/-- A fold whose steps advance a counter by at most one and succeed below a limit
    succeeds if there is room for all of them. -/
theorem foldlM_exists {α : Type} {f : Progress → α → Option Progress} {counter : Progress → Nat}
    {limit : Nat} (hstep : ∀ p x, counter p < limit →
      ∃ p', f p x = some p' ∧ counter p' ≤ counter p + 1) :
    ∀ (l : List α) (p : Progress), counter p + l.length ≤ limit →
      ∃ p', l.foldlM f p = some p' := by
  intro l
  induction l with
  | nil => exact fun p _ => ⟨p, rfl⟩
  | cons x l ih =>
    intro p hroom
    rw [List.length_cons] at hroom
    obtain ⟨q, hq, hle⟩ := hstep p x (by omega)
    obtain ⟨p', hp'⟩ := ih q (by omega)
    exact ⟨p', by rw [List.foldlM_cons, hq]; exact hp'⟩

/-- A run ends if its counters have room for all members and classes. -/
theorem run_ends (hierarchy : Hierarchy) (settings : Settings) (classes : List SourceClass)
    (renames : Renames)
    (hmembers : settings.nextMember.toNat + memberCount classes ≤ 4294967295)
    (hclasses : settings.nextClass.toNat + classes.length ≤ 4294967295) :
    ∃ p, synthesizeWith hierarchy settings classes renames = some p := by
  set ordered := classesInOrder .standard settings classes
  set recovered := constantsPass settings ordered
    (rulesPass settings ordered (start settings renames))
  have hkept : KeepsNumbers (start settings renames) recovered :=
    (rulesPass_keepsNumbers settings ordered _).trans
      (constantsPass_keepsNumbers settings ordered _)
  have hlength : ordered.length ≤ classes.length := length_classesInOrder_le .standard settings _
  obtain ⟨named, hnamed⟩ : ∃ named, classesPass .standard settings ordered recovered =
      some named := by
    unfold classesPass
    cases settings.classes with
    | none => exact ⟨recovered, rfl⟩
    | some naming =>
      apply foldlM_exists (fun p source => nameClass_exists source)
      rw [hkept.2.next]
      exact Nat.le_trans (Nat.add_le_add_left hlength _) hclasses
  obtain ⟨defined, hdefined⟩ : ∃ defined,
      definitionPass .standard hierarchy settings ordered named = some defined := by
    have hslots := length_slots_le .standard settings ordered
    have hcount : memberCount ordered ≤ memberCount classes :=
      memberCount_classesInOrder_le .standard settings classes
    obtain ⟨q, hq⟩ := foldlM_exists (fun p slot => defineSlot_exists slot)
      (slots .standard settings ordered) named (by
        rw [(classesPass_keepsMembers hnamed).next, hkept.1.next]
        show settings.nextMember.toNat + _ ≤ _
        omega)
    unfold definitionPass
    rw [foldlM_defineClass_eq, hq]
    exact ⟨_, rfl⟩
  exact ⟨_, run_eq_some_iff.mpr ⟨named, defined, hnamed, hdefined, rfl⟩⟩

end Progress

end Nomenclator
