import Nomenclator.Proofs.Reports
import Nomenclator.Proofs.Walks

/-!
# Numbers are never used twice

Results:
* `numberedName_injective`: the number of a numbered name can be read off it.
* `foldlM_numbers`: the numbers that a fold hands out are consecutive.
* `FinishedRun.numbersMembers`, `FinishedRun.numbersClasses`: the numbers of a run
  start where its settings say and end where its outcome says.
* `FinishedRun.chain_numbering`: over a chain of runs, in which each goes on where
  the one before ended, no two fields and no two methods get the same numbered
  name.
* `FinishedRun.eq_of_numbersClass`: nor do two classes get the same number.
-/

namespace Nomenclator

namespace Progress

/-! ## Numbered names -/

theorem underscore_not_mem_toString (n : Nat) : '_' ∉ (toString n).toList := by
  rw [Nat.toString_eq_repr, Nat.toList_repr]
  exact Nat.underscore_not_in_toDigits

theorem toString_injective {m n : Nat} (h : toString m = toString n) : m = n := by
  have hdigits : Nat.toDigits 10 m = Nat.toDigits 10 n := by
    rw [← Nat.toList_repr, ← Nat.toList_repr, ← Nat.toString_eq_repr, ← Nat.toString_eq_repr, h]
  have hread := congrArg (fun digits => Nat.ofDigitChars 10 digits 0) hdigits
  simpa using hread

/-- What stands before the first `_` of a text that starts with a number. -/
theorem takeWhile_number (n : Nat) (rest : List Char) :
    ((toString n).toList ++ '_' :: rest).takeWhile (· ≠ '_') = (toString n).toList := by
  rw [List.takeWhile_append_of_pos]
  · simp
  · intro c hc
    have hne : c ≠ '_' := by
      rintro rfl
      exact underscore_not_mem_toString n hc
    simpa using hne

/-- Numbered names with the same lead are equal only if their numbers are, however
    the old names look. -/
theorem numberedName_injective {lead : String} {m n : Nat} {a b : String}
    (h : numberedName lead m a = numberedName lead n b) : m = n := by
  have hchars : (toString m).toList ++ '_' :: a.toList =
      (toString n).toList ++ '_' :: b.toList := by
    have hlists := congrArg String.toList h
    simp only [numberedName, String.toList_append, List.append_assoc] at hlists
    exact List.append_cancel_left hlists
  apply toString_injective
  apply String.toList_inj.mp
  rw [← takeWhile_number m a.toList, hchars, takeWhile_number]

/-- Names whose numbers increase within the given bounds. -/
def NumberedWithin (lead : String) (names : List String) (first last : Nat) : Prop :=
  first ≤ last ∧ ∃ members : List (Nat × String),
    names = members.map (fun member => numberedName lead member.1 member.2) ∧
      (members.map (·.1)).Sublist (List.range' first (last - first))

namespace NumberedWithin

variable {lead : String} {xs ys : List String} {a b c : Nat}

theorem nil (lead : String) (h : a ≤ b) : NumberedWithin lead [] a b :=
  ⟨h, [], rfl, List.nil_sublist _⟩

theorem singleton (lead : String) (id : Nat) (oldName : String) :
    NumberedWithin lead [numberedName lead id oldName] id (id + 1) :=
  ⟨Nat.le_succ id, [(id, oldName)], rfl, by simp⟩

theorem append (hx : NumberedWithin lead xs a b) (hy : NumberedWithin lead ys b c) :
    NumberedWithin lead (xs ++ ys) a c := by
  obtain ⟨hab, members, rfl, hmembers⟩ := hx
  obtain ⟨hbc, others, rfl, hothers⟩ := hy
  refine ⟨Nat.le_trans hab hbc, members ++ others, by rw [List.map_append], ?_⟩
  have hranges : List.range' a (b - a) ++ List.range' b (c - b) = List.range' a (c - a) := by
    have hjoin := List.range'_append_1 (s := a) (m := b - a) (n := c - b)
    rw [show a + (b - a) = b by omega, show b - a + (c - b) = c - a by omega] at hjoin
    exact hjoin
  rw [List.map_append, ← hranges]
  exact hmembers.append hothers

theorem nodup (h : NumberedWithin lead xs a b) : xs.Nodup := by
  obtain ⟨-, members, rfl, hmembers⟩ := h
  have hids : (members.map (·.1)).Nodup := hmembers.nodup List.nodup_range'
  rw [List.Nodup, List.pairwise_map] at hids ⊢
  exact hids.imp fun hne heq => hne (numberedName_injective heq)

end NumberedWithin

/-! ## Numbers of a fold -/

/-- If every step hands out no number or the one that the counter shows, shifted by
    `offset`, then a fold hands out consecutive numbers, each to one of the things
    it goes through and in their order. -/
theorem foldlM_numbers {α : Type} {f : Progress → α → Option Progress}
    {counter : Progress → Nat} {events : Progress → List Event} {event : α → Nat → Event}
    {offset limit : Nat}
    (hstep : ∀ p p' x, f p x = some p' →
      (counter p' = counter p ∧ events p' = events p) ∨
      (counter p < limit ∧ counter p' = counter p + 1 ∧
        events p' = events p ++ [event x (counter p + offset)]))
    {l : List α} {p p' : Progress} (h : l.foldlM f p = some p') (hlimit : counter p ≤ limit) :
    counter p' ≤ limit ∧ ∃ numbered, numbered.Sublist l ∧
      counter p' = counter p + numbered.length ∧
      events p' = events p ++
        List.zipWith event numbered (List.range' (counter p + offset) numbered.length) := by
  induction l generalizing p with
  | nil =>
    cases h
    exact ⟨hlimit, [], List.Sublist.slnil, rfl, by simp⟩
  | cons x l ih =>
    rw [List.foldlM_cons] at h
    obtain ⟨q, hq, hrest⟩ := Option.bind_eq_some_iff.mp h
    rcases hstep p q x hq with ⟨hcounter, hevents⟩ | ⟨hroom, hcounter, hevents⟩
    · obtain ⟨hle, numbered, hsub, hcount, hlist⟩ := ih hrest (hcounter ▸ hlimit)
      rw [hcounter] at hcount hlist
      rw [hevents] at hlist
      exact ⟨hle, numbered, hsub.cons x, hcount, hlist⟩
    · obtain ⟨hle, numbered, hsub, hcount, hlist⟩ := ih hrest (by omega)
      refine ⟨hle, x :: numbered, hsub.cons_cons x, ?_, ?_⟩
      · rw [hcount, hcounter, List.length_cons]
        omega
      · rw [hlist, hevents, hcounter, List.length_cons, List.range'_succ, List.zipWith_cons_cons,
          Nat.add_right_comm, List.append_assoc]
        rfl

theorem advance32_eq_some {n next : Nat} (h : Conventions.advance32 n = some next) :
    n < 4294967295 ∧ next = n + 1 := by
  unfold Conventions.advance32 at h
  split_ifs at h with hlt
  exact ⟨hlt, (Option.some.inj h).symm⟩

theorem definitionPass_numbers {hierarchy : Hierarchy} {settings : Settings}
    {classes : List SourceClass} {p p' : Progress}
    (h : definitionPass .standard hierarchy settings classes p = some p')
    (hlimit : p.nextMember ≤ 4294967295) :
    p'.nextMember ≤ 4294967295 ∧
      ∃ numbered, numbered.Sublist (slots .standard settings classes) ∧
        p'.nextMember = p.nextMember + numbered.length ∧
        p'.memberEvents = p.memberEvents ++
          List.zipWith (Slot.event settings) numbered
            (List.range' p.nextMember numbered.length) := by
  unfold definitionPass at h
  obtain ⟨q, hq, hp⟩ := Option.bind_eq_some_iff.mp h
  cases hp
  rw [foldlM_defineClass_eq] at hq
  have hstep : ∀ p p' slot, defineSlot .standard hierarchy settings p slot = some p' →
      (p'.nextMember = p.nextMember ∧ p'.memberEvents = p.memberEvents) ∨
      (p.nextMember < 4294967295 ∧ p'.nextMember = p.nextMember + 1 ∧
        p'.memberEvents = p.memberEvents ++ [slot.event settings (p.nextMember + 0)]) := by
    intro p p' slot hslot
    rcases defineSlot_numbers hslot with hkeeps | ⟨hadvance, hevents⟩
    · exact Or.inl ⟨hkeeps.next, hkeeps.events⟩
    · obtain ⟨hlt, hnext⟩ := advance32_eq_some hadvance
      exact Or.inr ⟨hlt, hnext, hevents⟩
  obtain ⟨hle, numbered, hsub, hcount, hevents⟩ := foldlM_numbers hstep hq hlimit
  refine ⟨hle, numbered, hsub, hcount, ?_⟩
  rw [memberEvents_note, hevents]
  exact List.append_nil _

theorem classesPass_numbers {settings : Settings} {classes : List SourceClass} {p p' : Progress}
    (h : classesPass .standard settings classes p = some p')
    (hlimit : p.nextClass ≤ 4294967295) :
    p'.nextClass ≤ 4294967295 ∧
      ∃ named, named.Sublist classes ∧
        p'.nextClass = p.nextClass + named.length ∧
        p'.classEvents = p.classEvents ++
          List.zipWith (classEvent (settings.classes.getD {})) named
            (List.range' (p.nextClass + 1) named.length) := by
  unfold classesPass at h
  cases hclasses : settings.classes with
  | none =>
    rw [hclasses] at h
    cases h
    exact ⟨hlimit, [], List.nil_sublist _, rfl, by simp⟩
  | some naming =>
    rw [hclasses] at h
    have hstep : ∀ p p' source, nameClass .standard naming p source = some p' →
        (p'.nextClass = p.nextClass ∧ p'.classEvents = p.classEvents) ∨
        (p.nextClass < 4294967295 ∧ p'.nextClass = p.nextClass + 1 ∧
          p'.classEvents = p.classEvents ++ [classEvent naming source (p.nextClass + 1)]) := by
      intro p p' source hsource
      rcases nameClass_numbers hsource with hkeeps | ⟨hadvance, hevents⟩
      · exact Or.inl ⟨hkeeps.next, hkeeps.events⟩
      · obtain ⟨hlt, hnext⟩ := advance32_eq_some hadvance
        exact Or.inr ⟨hlt, hnext, hnext ▸ hevents⟩
    exact foldlM_numbers hstep h hlimit

end Progress

/-! ## Runs and chains of runs -/

/-- A run that ended, with all that went into it. -/
structure FinishedRun where
  hierarchy : Hierarchy
  settings : Settings
  classes : List SourceClass
  before : Renames
  after : Progress
  ended : synthesizeWith hierarchy settings classes before = some after

namespace FinishedRun

open Progress (Slot slots classesInOrder classEvent NumberedWithin)

/-- The classes that take part in the order in which the run goes through them. -/
def ordered (run : FinishedRun) : List SourceClass :=
  classesInOrder .standard run.settings run.classes

/-- The names of all kinds in the end are those that the field rules left and those
    that the events of the run report. -/
def ReportsNames (run : FinishedRun) : Prop :=
  run.after.Reported
    (Progress.rulesPass run.settings run.ordered (Progress.start run.settings run.before)).renames

/-- The numbers of members are consecutive: they begin with the one in the settings
    and end before the one in the outcome, and they go to members in the order in
    which the run looks at them. -/
def NumbersMembers (run : FinishedRun) : Prop :=
  ∃ numbered, numbered.Sublist (slots .standard run.settings run.ordered) ∧
    run.after.memberEvents =
      List.zipWith (Slot.event run.settings) numbered
        (List.range' run.settings.nextMember.toNat numbered.length) ∧
    run.after.outcome.nextMember.toNat = run.settings.nextMember.toNat + numbered.length

/-- The numbers of classes are consecutive: they begin after the one in the settings
    and end with the one in the outcome. -/
def NumbersClasses (run : FinishedRun) : Prop :=
  ∃ named, named.Sublist run.ordered ∧
    run.after.classEvents =
      List.zipWith (classEvent (run.settings.classes.getD {})) named
        (List.range' (run.settings.nextClass.toNat + 1) named.length) ∧
    run.after.outcome.nextClass.toNat = run.settings.nextClass.toNat + named.length

theorem reportsNames (run : FinishedRun) : run.ReportsNames := Progress.run_reported run.ended

/-- What has been done when the naming of classes begins. -/
def recovered (run : FinishedRun) : Progress :=
  Progress.constantsPass run.settings run.ordered
    (Progress.rulesPass run.settings run.ordered (Progress.start run.settings run.before))

theorem passes (run : FinishedRun) :
    ∃ named defined,
      Progress.classesPass .standard run.settings run.ordered run.recovered = some named ∧
      Progress.definitionPass .standard run.hierarchy run.settings run.ordered named =
        some defined ∧
      run.after = Progress.propagationPass run.hierarchy run.settings run.ordered defined :=
  Progress.run_eq_some_iff.mp run.ended

theorem recovered_keepsNumbers (run : FinishedRun) :
    Progress.KeepsNumbers (Progress.start run.settings run.before) run.recovered :=
  (Progress.rulesPass_keepsNumbers _ _ _).trans (Progress.constantsPass_keepsNumbers _ _ _)

theorem toNat_ofNat_of_le {n : Nat} (h : n ≤ 4294967295) : (UInt32.ofNat n).toNat = n :=
  UInt32.toNat_ofNat_of_lt' (Nat.lt_succ_of_le h)

theorem numbersMembers (run : FinishedRun) : run.NumbersMembers := by
  obtain ⟨named, defined, hnamed, hdefined, hafter⟩ := run.passes
  have hstart : Progress.KeepsMembers (Progress.start run.settings run.before) named :=
    run.recovered_keepsNumbers.1.trans (Progress.classesPass_keepsMembers hnamed)
  have hfirst : named.nextMember = run.settings.nextMember.toNat := hstart.next
  have hbound : run.settings.nextMember.toNat < 4294967296 := run.settings.nextMember.toNat_lt
  obtain ⟨hle, numbered, hsub, hcount, hevents⟩ :=
    Progress.definitionPass_numbers hdefined (by omega)
  have hend : Progress.KeepsMembers defined run.after := by
    rw [hafter]
    exact (Progress.propagationPass_keepsNumbers _ _ _ _).1
  refine ⟨numbered, hsub, ?_, ?_⟩
  · rw [hend.events, hevents, hstart.events, hfirst]
    rfl
  · show (UInt32.ofNat run.after.nextMember).toNat = _
    rw [hend.next, toNat_ofNat_of_le hle, hcount, hfirst]

theorem numbersClasses (run : FinishedRun) : run.NumbersClasses := by
  obtain ⟨named, defined, hnamed, hdefined, hafter⟩ := run.passes
  have hstart := run.recovered_keepsNumbers.2
  have hfirst : run.recovered.nextClass = run.settings.nextClass.toNat := hstart.next
  have hbound : run.settings.nextClass.toNat < 4294967296 := run.settings.nextClass.toNat_lt
  obtain ⟨hle, numbered, hsub, hcount, hevents⟩ :=
    Progress.classesPass_numbers hnamed (by omega)
  have hend : Progress.KeepsClasses named run.after := by
    rw [hafter]
    exact (Progress.definitionPass_keepsClasses hdefined).trans
      (Progress.propagationPass_keepsNumbers _ _ _ _).2
  refine ⟨numbered, hsub, ?_, ?_⟩
  · rw [hend.events, hevents, hstart.events, hfirst]
    rfl
  · show (UInt32.ofNat run.after.nextClass).toNat = _
    rw [hend.next, toNat_ofNat_of_le hle, hcount, hfirst]

/-! ## Numbered names of a chain -/

/-- The new names of the fields that got a number. -/
def numberedFieldNames (run : FinishedRun) : List String :=
  run.after.memberEvents.filterMap fun
    | .fieldNamed _ _ newName => some newName
    | _ => none

/-- The new names of the methods that got a number. -/
def numberedMethodNames (run : FinishedRun) : List String :=
  run.after.memberEvents.filterMap fun
    | .methodNamed _ _ newName => some newName
    | _ => none

/-- The later run goes on with the counters that the earlier one left. -/
def Continues (earlier later : FinishedRun) : Prop :=
  later.settings = later.settings.record earlier.after.outcome

theorem Continues.nextMember {earlier later : FinishedRun} (h : Continues earlier later) :
    later.settings.nextMember = earlier.after.outcome.nextMember := by
  rw [Continues] at h
  rw [h]
  rfl

/-- Names selected from the events of consecutive numbers have those numbers. -/
theorem numberedWithin_filterMap {settings : Settings} {lead : String}
    {select : Event → Option String}
    (hselect : ∀ (slot : Slot) id, select (slot.event settings id) = none ∨
      ∃ oldName, select (slot.event settings id) = some (Progress.numberedName lead id oldName))
    (numbered : List Slot) (first : Nat) :
    NumberedWithin lead ((List.zipWith (Slot.event settings) numbered
      (List.range' first numbered.length)).filterMap select) first (first + numbered.length) := by
  induction numbered generalizing first with
  | nil => exact NumberedWithin.nil lead (Nat.le_refl _)
  | cons slot numbered ih =>
    have hrest := ih (first + 1)
    rw [Nat.add_right_comm] at hrest
    rw [List.length_cons, List.range'_succ, List.zipWith_cons_cons]
    rcases hselect slot first with hnone | ⟨oldName, hsome⟩
    · rw [List.filterMap_cons_none hnone]
      exact (NumberedWithin.nil lead (Nat.le_succ first)).append hrest
    · rw [List.filterMap_cons_some hsome]
      exact (NumberedWithin.singleton lead first oldName).append hrest

theorem numberedFieldNames_within (run : FinishedRun) :
    NumberedWithin run.settings.fieldPrefix run.numberedFieldNames
      run.settings.nextMember.toNat run.after.outcome.nextMember.toNat := by
  obtain ⟨numbered, -, hevents, hend⟩ := run.numbersMembers
  rw [numberedFieldNames, hevents, hend]
  apply numberedWithin_filterMap
  intro slot id
  cases slot with
  | field source member => exact Or.inr ⟨member.name, rfl⟩
  | method source member => exact Or.inl rfl

theorem numberedMethodNames_within (run : FinishedRun) :
    NumberedWithin run.settings.methodPrefix run.numberedMethodNames
      run.settings.nextMember.toNat run.after.outcome.nextMember.toNat := by
  obtain ⟨numbered, -, hevents, hend⟩ := run.numbersMembers
  rw [numberedMethodNames, hevents, hend]
  apply numberedWithin_filterMap
  intro slot id
  cases slot with
  | field source member => exact Or.inl rfl
  | method source member => exact Or.inr ⟨member.name, rfl⟩

/-- What each run of a chain numbers within its own bounds, the chain numbers within
    the bounds of all of them. -/
theorem chain_numberedWithin {lead : String} {names : FinishedRun → List String}
    {run : FinishedRun} {later : List FinishedRun} (hchain : (run :: later).IsChain Continues)
    (hnames : ∀ r ∈ run :: later, NumberedWithin lead (names r) r.settings.nextMember.toNat
      r.after.outcome.nextMember.toNat) :
    ∃ last, NumberedWithin lead ((run :: later).flatMap names)
      run.settings.nextMember.toNat last := by
  induction later generalizing run with
  | nil =>
    refine ⟨run.after.outcome.nextMember.toNat, ?_⟩
    rw [List.flatMap_singleton]
    exact hnames run List.mem_cons_self
  | cons next later ih =>
    obtain ⟨hcontinues, htail⟩ := List.isChain_cons_cons.mp hchain
    obtain ⟨last, hlast⟩ := ih htail fun r hr => hnames r (List.mem_cons_of_mem _ hr)
    rw [hcontinues.nextMember] at hlast
    refine ⟨last, ?_⟩
    rw [List.flatMap_cons]
    exact (hnames run List.mem_cons_self).append hlast

theorem chain_nodup (lead : String) {names : FinishedRun → List String}
    {runs : List FinishedRun} (hchain : runs.IsChain Continues)
    (hnames : ∀ r ∈ runs, NumberedWithin lead (names r) r.settings.nextMember.toNat
      r.after.outcome.nextMember.toNat) : (runs.flatMap names).Nodup := by
  cases runs with
  | nil => exact List.nodup_nil
  | cons run later =>
    obtain ⟨last, hwithin⟩ := chain_numberedWithin hchain hnames
    exact hwithin.nodup

/-- The numbers that a run hands out are consecutive, from the counters in its
    settings to those in its outcome. Over a chain of runs that go on where the one
    before ended and mark names alike, no two fields get the same numbered name, and
    no two methods. -/
theorem chain_numbering {runs : List FinishedRun} {fieldLead methodLead : String}
    (hchain : runs.IsChain Continues)
    (hfields : ∀ run ∈ runs, run.settings.fieldPrefix = fieldLead)
    (hmethods : ∀ run ∈ runs, run.settings.methodPrefix = methodLead) :
    (∀ run ∈ runs, run.ReportsNames ∧ run.NumbersMembers ∧ run.NumbersClasses) ∧
    (runs.flatMap numberedFieldNames).Nodup ∧ (runs.flatMap numberedMethodNames).Nodup := by
  refine ⟨?_, ?_, ?_⟩
  · intro run _
    exact ⟨run.reportsNames, run.numbersMembers, run.numbersClasses⟩
  · refine chain_nodup fieldLead hchain fun run hrun => ?_
    rw [← hfields run hrun]
    exact run.numberedFieldNames_within
  · refine chain_nodup methodLead hchain fun run hrun => ?_
    rw [← hmethods run hrun]
    exact run.numberedMethodNames_within

theorem nextClass_le (run : FinishedRun) :
    run.after.outcome.nextClass.toNat ≤ run.settings.nextClass.toNat + run.classes.length := by
  obtain ⟨named, hsub, -, hend⟩ := run.numbersClasses
  have hordered : run.ordered.length ≤ run.classes.length :=
    Progress.length_classesInOrder_le .standard run.settings run.classes
  have hnamed := hsub.length_le
  omega

/-- A class with a field and a method. -/
def twoMembers : List SourceClass :=
  [((SourceClass.new "a" none).addField 0 "f" "I").addMethod 0 "m" "()V"]

/-- A run over the class gives its field and its method the next two numbers. -/
theorem twoMembers_run :
    ∀ first ∈ [(0 : UInt32), 2],
      (synthesizeWith Hierarchy.empty { nextMember := first } twoMembers {}).map
          (fun p => (p.memberEvents, p.outcome.nextMember, p.outcome.nextClass)) =
        some ([.fieldNamed "a" "f" (Progress.numberedName "field_" first.toNat "f"),
          .methodNamed "a" ⟨"m", "()V"⟩ (Progress.numberedName "func_" (first.toNat + 1) "m")],
          first + 2, 0) := by
  -- Walks do not evaluate as they are defined, so the definitions are opened down to them.
  delta synthesizeWith Progress.run Progress.definitionPass Progress.defineClass
    Progress.defineMethods Progress.defineMethod Progress.propagationPass
    Progress.propagateClass Progress.propagateMethod Progress.findInherited
    Hierarchy.findDeclaring Hierarchy.findAncestor
  simp only [Graph.walk_eq_walkUnrolled 1]
  rw [List.forall_mem_cons, List.forall_mem_singleton]
  constructor <;> decide +kernel

/-- Two runs over the same class, the second of which has forgotten all names, still
    give different names. -/
theorem chain_numbering_forgetful :
    ∃ first second : FinishedRun, first.classes = twoMembers ∧ second.classes = twoMembers ∧
      second.before = {} ∧ second.settings = first.settings.record first.after.outcome ∧
      first.numberedFieldNames = ["field_0_f"] ∧ first.numberedMethodNames = ["func_1_m"] ∧
      second.numberedFieldNames = ["field_2_f"] ∧ second.numberedMethodNames = ["func_3_m"] ∧
      (first.numberedFieldNames ++ second.numberedFieldNames).Nodup ∧
      (first.numberedMethodNames ++ second.numberedMethodNames).Nodup := by
  obtain ⟨p, hp, hfirst⟩ := Option.map_eq_some_iff.mp (twoMembers_run 0 (by decide))
  obtain ⟨q, hq, hsecond⟩ := Option.map_eq_some_iff.mp (twoMembers_run 2 (by decide))
  simp only [Prod.mk.injEq] at hfirst hsecond
  obtain ⟨hearlier, hmember, hclass⟩ := hfirst
  obtain ⟨hlater, -⟩ := hsecond
  let first : FinishedRun := ⟨Hierarchy.empty, {}, twoMembers, {}, p, hp⟩
  let second : FinishedRun := ⟨Hierarchy.empty, { nextMember := 2 }, twoMembers, {}, q, hq⟩
  have hsettings : second.settings = first.settings.record first.after.outcome := by
    show _ = Settings.record {} p.outcome
    rw [Settings.record, hmember, hclass]
    rfl
  have hchain : [first, second].IsChain Continues :=
    List.isChain_cons_cons.mpr ⟨hsettings, List.isChain_singleton _⟩
  have hleads : ∀ run ∈ [first, second],
      run.settings.fieldPrefix = "field_" ∧ run.settings.methodPrefix = "func_" := by
    simp [first, second]
  obtain ⟨-, hfields, hmethods⟩ := chain_numbering hchain (fun run hrun => (hleads run hrun).1)
    (fun run hrun => (hleads run hrun).2)
  refine ⟨first, second, rfl, rfl, rfl, hsettings, ?_, ?_, ?_, ?_, ?_, ?_⟩
  · rw [numberedFieldNames, hearlier]
    decide +kernel
  · rw [numberedMethodNames, hearlier]
    decide +kernel
  · rw [numberedFieldNames, hlater]
    decide +kernel
  · rw [numberedMethodNames, hlater]
    decide +kernel
  · simpa using hfields
  · simpa using hmethods

/-! ## Numbers of classes -/

/-- The run gives the class this number. -/
def NumbersClass (run : FinishedRun) (name : String) (id : Nat) : Prop :=
  ∃ i newName, run.after.classEvents[i]? = some (.classNamed name newName) ∧
    id = run.settings.nextClass.toNat + 1 + i

theorem nextClass_eq (run : FinishedRun) :
    run.after.outcome.nextClass.toNat =
      run.settings.nextClass.toNat + run.after.classEvents.length := by
  obtain ⟨named, -, hevents, hend⟩ := run.numbersClasses
  rw [hend, hevents, List.length_zipWith, List.length_range', Nat.min_self]

/-- A class that is named has a number in its name. -/
theorem exists_numbersClass (run : FinishedRun) {naming : ClassNaming}
    (hnaming : run.settings.classes = some naming) {name newName : String}
    (h : Event.classNamed name newName ∈ run.after.log) :
    ∃ id, run.NumbersClass name id ∧ newName = Progress.newClassName naming id name := by
  have hmem : Event.classNamed name newName ∈ run.after.classEvents :=
    List.mem_filter.mpr ⟨Array.mem_toList_iff.mpr h, rfl⟩
  obtain ⟨i, hi⟩ := List.mem_iff_getElem?.mp hmem
  refine ⟨_, ⟨i, newName, hi, rfl⟩, ?_⟩
  obtain ⟨named, -, hevents, -⟩ := run.numbersClasses
  rw [hevents, hnaming, List.getElem?_zipWith_eq_some] at hi
  obtain ⟨source, id, -, hid, hevent⟩ := hi
  obtain ⟨rfl, rfl⟩ := Event.classNamed.inj hevent
  obtain ⟨hlt, rfl⟩ := List.getElem?_eq_some_iff.mp hid
  rw [List.getElem_range', Nat.one_mul]
  rfl

/-- All numbers of the earlier run come before those of the later one. -/
def EndsBefore (earlier later : FinishedRun) : Prop :=
  earlier.after.outcome.nextClass.toNat ≤ later.settings.nextClass.toNat

theorem Continues.endsBefore {earlier later : FinishedRun} (h : Continues earlier later) :
    EndsBefore earlier later := by
  rw [Continues] at h
  rw [EndsBefore, h]
  exact le_rfl

instance : IsTrans FinishedRun EndsBefore where
  trans first second third hfirst hsecond := by
    have hgrows := second.nextClass_eq
    unfold EndsBefore at *
    omega

/-- Of two runs of a chain one ends before the other, unless they are the same. -/
theorem endsBefore_or_endsBefore {runs : List FinishedRun} (hchain : runs.IsChain Continues)
    {first second : FinishedRun} (hfirst : first ∈ runs) (hsecond : second ∈ runs)
    (hne : first ≠ second) : EndsBefore first second ∨ EndsBefore second first := by
  have hpairwise : runs.Pairwise EndsBefore :=
    (hchain.imp fun _ _ => Continues.endsBefore).pairwise
  have heither : runs.Pairwise fun r s => EndsBefore r s ∨ EndsBefore s r :=
    hpairwise.imp fun h => Or.inl h
  have hsymm : Std.Symm fun r s => EndsBefore r s ∨ EndsBefore s r := ⟨fun _ _ => Or.symm⟩
  exact heither.forall hfirst hsecond hne

/-- A chain of runs gives no number to two classes. -/
theorem eq_of_numbersClass {runs : List FinishedRun} (hchain : runs.IsChain Continues)
    {first second : FinishedRun} (hfirst : first ∈ runs) (hsecond : second ∈ runs) {a b : String}
    {id : Nat} (ha : first.NumbersClass a id) (hb : second.NumbersClass b id) : a = b := by
  obtain ⟨i, newA, hi, hidA⟩ := ha
  obtain ⟨j, newB, hj, hidB⟩ := hb
  by_cases hsame : first = second
  · subst hsame
    obtain rfl : i = j := by omega
    exact (Event.classNamed.inj (Option.some.inj (hi.symm.trans hj))).1
  · have hlengthA := (List.getElem?_eq_some_iff.mp hi).1
    have hlengthB := (List.getElem?_eq_some_iff.mp hj).1
    have hendA := first.nextClass_eq
    have hendB := second.nextClass_eq
    have hordered := endsBefore_or_endsBefore hchain hfirst hsecond hsame
    unfold EndsBefore at hordered
    omega

end FinishedRun

end Nomenclator
