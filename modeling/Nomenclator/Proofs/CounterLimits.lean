import Nomenclator.Proofs.Numbering

/-!
# Counters that run out

A run counts with 32 bits and fails when a counter would have to go beyond 4294967295. Here it
is compared with the same run whose counters have no bound. That run always ends, and it tells
what happens to the other: the two agree as long as no counter has passed the limit, and a
counter that has passed it never comes back.

The counter of members shows the next number and that of classes the last one. So the largest
number of 32 bits is never given to a member, but it may be given to a class.

Results:
* `nameClass_checked`, `defineSlot_checked`: a step fails exactly if the counter of the unbounded
  step has passed the limit.
* `foldlM_checked`: so does a fold of such steps.
* `synthesizeWith_eq_unbounded`: so does a run.
-/

namespace Nomenclator

/-- Letters are compared as usual, and counters have no bound. -/
def Conventions.unbounded : Conventions := ⟨Text.lowercase, Conventions.advanceUnbounded⟩

namespace Progress

/-! ## Steps -/

/-- The second step always succeeds and its counter does not go back. From a counter within 32
    bits the first does the same if the counter is still within them, and fails otherwise. -/
def CheckedBy {α : Type} (counter : Progress → Nat)
    (checked free : Progress → α → Option Progress) : Prop :=
  ∀ p x, ∃ p', free p x = some p' ∧ counter p ≤ counter p' ∧
    (counter p ≤ 4294967295 →
      checked p x = if counter p' ≤ 4294967295 then some p' else none)

theorem advance32_eq (n : Nat) :
    Conventions.standard.advance n = if n + 1 ≤ 4294967295 then some (n + 1) else none := rfl

/-- What is done after a check of the limit happens within the limit. -/
theorem bind_within {α β : Type} {within : Prop} [Decidable within] (a : α) (f : α → β) :
    (if within then some a else none).bind (fun x => some (f x)) =
      if within then some (f a) else none := by
  by_cases h : within
  · rw [if_pos h, if_pos h, Option.bind_some]
  · rw [if_neg h, if_neg h, Option.bind_none]

theorem nameClass_checked (naming : ClassNaming) :
    CheckedBy (·.nextClass) (nameClass .standard naming) (nameClass .unbounded naming) := by
  intro p source
  unfold nameClass
  split_ifs with hnamed
  · exact ⟨p, rfl, Nat.le_refl _, fun hlimit => (if_pos hlimit).symm⟩
  · refine ⟨_, rfl, Nat.le_succ _, fun _ => ?_⟩
    rw [advance32_eq]
    exact bind_within _ _

/-- Taking a number is where the two conventions differ; what is done with it does not. -/
theorem takeMember_checked (p : Progress) (f : Nat → Progress → Progress)
    (hf : ∀ id q, (f id q).nextMember = q.nextMember) :
    ∃ p', (p.takeMember .unbounded).bind (fun taken => some (f taken.1 taken.2)) = some p' ∧
      p.nextMember ≤ p'.nextMember ∧
      (p.takeMember .standard).bind (fun taken => some (f taken.1 taken.2)) =
        if p'.nextMember ≤ 4294967295 then some p' else none := by
  refine ⟨_, rfl, ?_, ?_⟩
  · rw [hf]
    exact Nat.le_succ _
  · have htaken : p.takeMember .standard = if p.nextMember + 1 ≤ 4294967295
        then some (p.nextMember, { p with nextMember := p.nextMember + 1 }) else none := by
      rw [takeMember, advance32_eq]
      exact bind_within _ _
    rw [hf, htaken]
    exact bind_within _ _

theorem defineSlot_checked (hierarchy : Hierarchy) (settings : Settings) :
    CheckedBy (·.nextMember) (defineSlot .standard hierarchy settings)
      (defineSlot .unbounded hierarchy settings) := by
  intro p slot
  cases slot with
  | field source member =>
    simp only [defineSlot]
    unfold defineField
    split_ifs with hleft hvalues
    · exact ⟨p, rfl, Nat.le_refl _, fun hlimit => (if_pos hlimit).symm⟩
    · exact ⟨_, rfl, Nat.le_refl _, fun hlimit => (if_pos hlimit).symm⟩
    · obtain ⟨p', hfree, hle, hchecked⟩ := takeMember_checked p
        (fun id => setField source member (numberedName settings.fieldPrefix id member.name))
        fun _ _ => rfl
      exact ⟨p', hfree, hle, fun _ => hchecked⟩
  | method source member =>
    simp only [defineSlot]
    unfold defineMethod
    dsimp only
    split_ifs with hleft
    · exact ⟨_, rfl, Nat.le_refl _, fun hlimit => (if_pos hlimit).symm⟩
    · obtain ⟨p', hfree, hle, hchecked⟩ := takeMember_checked
        (p.noteAsked (askedFor hierarchy source member))
        (fun id => setMethod source member.key (numberedName settings.methodPrefix id member.name))
        fun _ _ => rfl
      exact ⟨p', hfree, hle, fun _ => hchecked⟩

/-! ## Folds and passes -/

/-- Once the counter has passed the limit the unbounded fold never comes back, so it does not
    matter at which step the other fails. -/
theorem foldlM_checked {α : Type} {counter : Progress → Nat}
    {checked free : Progress → α → Option Progress} (h : CheckedBy counter checked free) :
    CheckedBy counter (fun p l => l.foldlM checked p) (fun p (l : List α) => l.foldlM free p) := by
  intro p l
  induction l generalizing p with
  | nil => exact ⟨p, rfl, Nat.le_refl _, fun hlimit => (if_pos hlimit).symm⟩
  | cons x l ih =>
    obtain ⟨q, hfree, hpq, hchecked⟩ := h p x
    obtain ⟨p', hrest, hqp', hlater⟩ := ih q
    refine ⟨p', ?_, Nat.le_trans hpq hqp', fun hlimit => ?_⟩
    · simp only [List.foldlM_cons, hfree]
      exact hrest
    · simp only [List.foldlM_cons, hchecked hlimit]
      by_cases hq : counter q ≤ 4294967295
      · rw [if_pos hq]
        exact hlater hq
      · have hp' : ¬counter p' ≤ 4294967295 := by omega
        rw [if_neg hq, if_neg hp']
        rfl

theorem classesPass_checked (settings : Settings) :
    CheckedBy (·.nextClass) (fun p classes => classesPass .standard settings classes p)
      (fun p classes => classesPass .unbounded settings classes p) := by
  intro p classes
  unfold classesPass
  cases settings.classes with
  | none => exact ⟨p, rfl, Nat.le_refl _, fun hlimit => (if_pos hlimit).symm⟩
  | some naming => exact foldlM_checked (nameClass_checked naming) p classes

theorem definitionPass_checked (hierarchy : Hierarchy) (settings : Settings) :
    CheckedBy (·.nextMember)
      (fun p classes => definitionPass .standard hierarchy settings classes p)
      (fun p classes => definitionPass .unbounded hierarchy settings classes p) := by
  intro p classes
  obtain ⟨q, hfree, hpq, hchecked⟩ :=
    foldlM_checked (defineSlot_checked hierarchy settings) p (slots .unbounded settings classes)
  have hslots : slots .standard settings classes = slots .unbounded settings classes := rfl
  simp only [definitionPass, foldlM_defineClass_eq, hslots] at hfree hchecked ⊢
  refine ⟨q.note (.definitionsDone classes.length q.tally.namedFields q.tally.namedMethods
    q.nextMember), by rw [hfree]; rfl, hpq, fun hlimit => ?_⟩
  rw [hchecked hlimit]
  exact bind_within _ _

/-! ## Numbers of members -/

theorem Slot.event_injective {settings : Settings} {slot other : Slot} {m n : Nat}
    (h : slot.event settings m = other.event settings n) : m = n := by
  cases slot with
  | field source member =>
    cases other with
    | field _ _ => exact numberedName_injective (Event.fieldNamed.inj h).2.2
    | method _ _ => cases h
  | method source member =>
    cases other with
    | field _ _ => cases h
    | method _ _ => exact numberedName_injective (Event.methodNamed.inj h).2.2

end Progress

/-- No member gets the number at which the counter of members stands in the end, nor one
    beyond. -/
theorem FinishedRun.event_not_mem (run : FinishedRun) {id : Nat}
    (hid : run.after.outcome.nextMember.toNat ≤ id) (slot : Progress.Slot) :
    slot.event run.settings id ∉ run.after.memberEvents := by
  obtain ⟨numbered, -, hevents, hend⟩ := run.numbersMembers
  rw [hevents, ← List.map_uncurry_zip_eq_zipWith]
  intro hmem
  obtain ⟨⟨other, n⟩, hpair, heq⟩ := List.mem_map.mp hmem
  have hsame : n = id := Progress.Slot.event_injective heq
  have hn := List.mem_range'_1.mp (List.of_mem_zip hpair).2
  omega

/-! ## Runs -/

namespace Progress

/-- A run without bound on the counters ends, and the run with 32 bits does the same exactly if
    both counters are within 32 bits in the end. -/
theorem run_checked (hierarchy : Hierarchy) (settings : Settings) (classes : List SourceClass)
    (renames : Renames) :
    ∃ ideal, run .unbounded hierarchy settings classes renames = some ideal ∧
      run .standard hierarchy settings classes renames =
        if ideal.nextMember ≤ 4294967295 ∧ ideal.nextClass ≤ 4294967295 then some ideal
        else none := by
  set ordered := classesInOrder .standard settings classes
  set recovered := constantsPass settings ordered
    (rulesPass settings ordered (start settings renames))
  have hkept : KeepsNumbers (start settings renames) recovered :=
    (rulesPass_keepsNumbers settings ordered _).trans
      (constantsPass_keepsNumbers settings ordered _)
  obtain ⟨named, hnamed, -, hclasses⟩ := classesPass_checked settings recovered ordered
  obtain ⟨defined, hdefined, -, hmembers⟩ :=
    definitionPass_checked hierarchy settings named ordered
  dsimp only at hnamed hclasses hdefined hmembers
  have hlast := propagationPass_keepsNumbers hierarchy settings ordered defined
  -- The limits at which the two passes fail are those of the counters in the end.
  have hclassLimit : recovered.nextClass ≤ 4294967295 := by
    rw [hkept.2.next]
    exact Nat.le_of_lt_succ settings.nextClass.toNat_lt
  have hmemberLimit : named.nextMember ≤ 4294967295 := by
    rw [(classesPass_keepsMembers hnamed).next, hkept.1.next]
    exact Nat.le_of_lt_succ settings.nextMember.toNat_lt
  have hclassEnd : (propagationPass hierarchy settings ordered defined).nextClass =
      named.nextClass := by
    rw [hlast.2.next, (definitionPass_keepsClasses hdefined).next]
  refine ⟨propagationPass hierarchy settings ordered defined,
    run_eq_some_iff.mpr ⟨named, defined, hnamed, hdefined, rfl⟩, ?_⟩
  have hrun : run .standard hierarchy settings classes renames =
      (classesPass .standard settings ordered recovered).bind fun p =>
        (definitionPass .standard hierarchy settings ordered p).bind fun q =>
          some (propagationPass hierarchy settings ordered q) := rfl
  rw [hrun, hclasses hclassLimit, hlast.1.next, hclassEnd]
  by_cases hclass : named.nextClass ≤ 4294967295
  · by_cases hmember : defined.nextMember ≤ 4294967295
    · rw [if_pos hclass, if_pos ⟨hmember, hclass⟩, Option.bind_some, hmembers hmemberLimit,
        if_pos hmember, Option.bind_some]
    · rw [if_pos hclass, if_neg fun h => hmember h.1, Option.bind_some, hmembers hmemberLimit,
        if_neg hmember, Option.bind_none]
  · rw [if_neg hclass, if_neg fun h => hclass h.2, Option.bind_none]

end Progress

/-- A run that goes on from 4294967294 gives its class the largest number of 32 bits. -/
theorem lastClassNumber_given :
    ∃ settings source p, synthesizeWith Hierarchy.empty settings [source] {} = some p ∧
      Progress.classEvent (settings.classes.getD {}) source 4294967295 ∈ p.classEvents ∧
      p.renames.className? source.name = some "Class4294967295_a" := by
  let settings : Settings := { classes := some {}, nextClass := 4294967294 }
  have hrun : (synthesizeWith Hierarchy.empty settings [SourceClass.new "a" none] {}).map
      (fun p => (p.classEvents, p.renames.className? "a")) =
        some ([.classNamed "a" "Class4294967295_a"], some "Class4294967295_a") := by
    decide +kernel
  obtain ⟨p, hp, hresult⟩ := Option.map_eq_some_iff.mp hrun
  obtain ⟨hevents, hname⟩ := Prod.mk.inj hresult
  have hevent : Progress.classEvent {} (SourceClass.new "a" none) 4294967295 =
      .classNamed "a" "Class4294967295_a" := by
    decide +kernel
  refine ⟨settings, SourceClass.new "a" none, p, hp, ?_, hname⟩
  rw [hevents]
  exact List.mem_singleton.mpr hevent

/-- A run is compared with the same run without bound on the counters, which always ends. If
    both counters are at most 4294967295 in the end, the run ends alike; otherwise it fails. So no
    member gets the number 4294967295, whereas a class may. -/
theorem synthesizeWith_eq_unbounded (hierarchy : Hierarchy) (settings : Settings)
    (classes : List SourceClass) (renames : Renames) :
    (∃ ideal, Progress.run .unbounded hierarchy settings classes renames = some ideal ∧
      (ideal.nextMember ≤ 4294967295 ∧ ideal.nextClass ≤ 4294967295 →
        synthesizeWith hierarchy settings classes renames = some ideal ∧
        ideal.outcome.nextMember.toNat = ideal.nextMember ∧
        ideal.outcome.nextClass.toNat = ideal.nextClass) ∧
      (¬(ideal.nextMember ≤ 4294967295 ∧ ideal.nextClass ≤ 4294967295) →
        synthesizeWith hierarchy settings classes renames = none)) ∧
    (∀ p, synthesizeWith hierarchy settings classes renames = some p →
      ∀ slot : Progress.Slot, slot.event settings 4294967295 ∉ p.memberEvents) ∧
    (∃ other source p, synthesizeWith Hierarchy.empty other [source] {} = some p ∧
      Progress.classEvent (other.classes.getD {}) source 4294967295 ∈ p.classEvents ∧
      p.renames.className? source.name = some "Class4294967295_a") := by
  refine ⟨?_, ?_, lastClassNumber_given⟩
  · obtain ⟨ideal, hideal, hchecked⟩ := Progress.run_checked hierarchy settings classes renames
    refine ⟨ideal, hideal, fun hfits => ⟨?_, ?_, ?_⟩, fun hpassed => ?_⟩
    · exact hchecked.trans (if_pos hfits)
    · exact FinishedRun.toNat_ofNat_of_le hfits.1
    · exact FinishedRun.toNat_ofNat_of_le hfits.2
    · exact hchecked.trans (if_neg hpassed)
  · intro p hp slot
    let run : FinishedRun := ⟨hierarchy, settings, classes, renames, p, hp⟩
    exact run.event_not_mem (Nat.le_of_lt_succ run.after.outcome.nextMember.toNat_lt) slot

end Nomenclator
