import Nomenclator.Proofs.ClassNameAgreement
import Nomenclator.Proofs.NameFormats

/-!
# Classes are named apart

Every class that a run names gets a number of its own, also over a chain of runs that go on with
the counters of the run before. Whether the names are different too is up to the format: it has
to tell the number from the old names.

Results:
* `Progress.number_eq_of_newClassName_eq`: if the format separates the number, a name has one
  number, whether the class is inside another or not.
* `FinishedRun.exists_chain`: any names can be given the numbers of a chain one by one.
* `classNames_apart`: a format that separates the number keeps names apart, and for formats
  without digits and with few old names nothing less will do.
* `classNames_collide`: a format in which number and old name touch.
-/

namespace Nomenclator

open Progress (newClassName)

/-! ## The number in a name -/

namespace Progress

/-- A class is named by the filled-in format behind a lead that is empty or the package. What is
    filled in for the old name holds no slash. -/
theorem exists_newClassName_eq (naming : ClassNaming) (className : String) :
    ∃ lead shown, (lead = "" ∨ lead = naming.packageLead) ∧ '/' ∉ shown.toList ∧
      ∀ id, newClassName naming id className = lead ++ naming.formatName id shown := by
  obtain ⟨-, -, hslash⟩ := Text.exists_before_afterLast '/' className
  cases hinner : enclosing? (Text.afterLast '/' className) with
  | none =>
    refine ⟨naming.packageLead, _, Or.inr rfl, hslash, fun id => ?_⟩
    rw [newClassName, hinner]
  | some parts =>
    obtain ⟨outer, inner⟩ := parts
    obtain ⟨hsimple, -⟩ := enclosing?_eq_some_iff.mp hinner
    refine ⟨"", inner, Or.inl rfl, fun hmem => hslash ?_, fun id => ?_⟩
    · rw [hsimple]
      simp [hmem]
    · rw [newClassName, hinner, String.empty_append]

theorem slash_mem_packageLead {naming : ClassNaming} (h : naming.packageLead ≠ "") :
    '/' ∈ naming.packageLead.toList := by
  unfold ClassNaming.packageLead at h ⊢
  dsimp only at h ⊢
  split_ifs at h ⊢ with hempty
  · exact absurd rfl h
  · simp

theorem lead_eq_of_count_eq {naming : ClassNaming} {lead other : String}
    (hlead : lead = "" ∨ lead = naming.packageLead)
    (hother : other = "" ∨ other = naming.packageLead)
    (h : lead.toList.count '/' = other.toList.count '/') : lead = other := by
  have hempty (hzero : naming.packageLead.toList.count '/' = 0) : naming.packageLead = "" := by
    by_contra hne
    exact List.count_eq_zero.mp hzero (slash_mem_packageLead hne)
  rcases hlead with hlead | hlead <;> rcases hother with hother | hother <;>
    rw [hlead, hother] at h <;> rw [hlead, hother]
  · exact (hempty h.symm).symm
  · exact hempty h

/-- A filled-in format has the slashes of the format. -/
theorem count_slash_formatName (naming : ClassNaming) (id : Nat) {shown : String}
    (h : '/' ∉ shown.toList) :
    (naming.formatName id shown).toList.count '/' =
      (FormatPiece.ownChars naming.pieces).count '/' := by
  have hdigits : '/' ∉ (toString id).toList := by
    intro hmem
    have hdigit := ClassNaming.isDigit_toString '/' hmem
    exact absurd hdigit (by decide)
  have hcount := FormatPiece.countP_flatMap_fill (· == '/') naming.pieces (toString id).toList
    shown.toList
  rw [← List.count_eq_countP, ← List.count_eq_countP, ← List.count_eq_countP,
    ← List.count_eq_countP, List.count_eq_zero_of_not_mem hdigits,
    List.count_eq_zero_of_not_mem h] at hcount
  rw [ClassNaming.formatName_toList, hcount]
  omega

/-- The number in a name of a class is unique. Slashes tell whether there is a package in front:
    they come from it and from the format only. -/
theorem number_eq_of_newClassName_eq {naming : ClassNaming}
    (hnumber : FormatPiece.number ∈ naming.pieces) (hseparates : naming.Separates) {id other : Nat}
    {a b : String} (h : newClassName naming id a = newClassName naming other b) : id = other := by
  obtain ⟨leadA, shownA, hleadA, hslashA, hnameA⟩ := exists_newClassName_eq naming a
  obtain ⟨leadB, shownB, hleadB, hslashB, hnameB⟩ := exists_newClassName_eq naming b
  have hlists := congrArg String.toList h
  rw [hnameA, hnameB, String.toList_append, String.toList_append] at hlists
  have hleads : leadA = leadB := by
    have hcount := congrArg (List.count '/') hlists
    rw [List.count_append, List.count_append, count_slash_formatName naming id hslashA,
      count_slash_formatName naming other hslashB] at hcount
    exact lead_eq_of_count_eq hleadA hleadB (by omega)
  rw [hleads, List.append_cancel_left_eq, ClassNaming.formatName_toList,
    ClassNaming.formatName_toList] at hlists
  exact toString_injective (String.toList_inj.mp (FormatPiece.number_eq_of_fill_eq hnumber
    hseparates ClassNaming.isDigit_toString ClassNaming.isDigit_toString hlists))

end Progress

/-! ## Formats that keep names apart -/

namespace ClassNaming

open FinishedRun (Continues)

/-- Over every chain of runs with settings that name classes in this way and have nothing wrong
    with them, no two classes are given the same name. -/
def KeepsApart (naming : ClassNaming) : Prop :=
  ∀ runs : List FinishedRun, runs.IsChain Continues →
    (∀ run ∈ runs, run.settings.classes = some naming ∧ run.settings.problem? = none) →
    ∀ first ∈ runs, ∀ second ∈ runs, ∀ a b newA newB,
      Event.classNamed a newA ∈ first.after.log → Event.classNamed b newB ∈ second.after.log →
        a ≠ b → newA ≠ newB

theorem contains_of_problem? {settings : Settings} {naming : ClassNaming}
    (hnaming : settings.classes = some naming) (h : settings.problem? = none) :
    Text.contains naming.format idPlaceholder = true := by
  unfold Settings.problem? at h
  rw [hnaming] at h
  by_contra hnot
  split_ifs at h
  simp [hnot] at h

end ClassNaming

/-! ## Chains with given names -/

namespace FinishedRun

/-- The settings name classes in this way, whatever package they are in. -/
structure NamesAll (naming : ClassNaming) (settings : Settings) : Prop where
  classes : settings.classes = some naming
  problem? : settings.problem? = none
  excludedPackages : settings.excludedPackages = []

variable {naming : ClassNaming} {settings : Settings}

theorem NamesAll.record (h : NamesAll naming settings) (outcome : Outcome) :
    NamesAll naming (settings.record outcome) :=
  ⟨h.classes, h.problem?, h.excludedPackages⟩

theorem NamesAll.excludes_eq_false (h : NamesAll naming settings) (name : String) :
    settings.excludes name = false := by
  rw [Settings.excludes, h.excludedPackages]
  rfl

/-- A run over a single class gives it the next number. -/
theorem exists_run_single (h : NamesAll naming settings)
    (hroom : settings.nextClass.toNat < 4294967295) (name : String) :
    ∃ run : FinishedRun, run.settings = settings ∧
      run.after.outcome.nextClass.toNat = settings.nextClass.toNat + 1 ∧
      Event.classNamed name (newClassName naming (settings.nextClass.toNat + 1) name) ∈
        run.after.log := by
  let source := SourceClass.new name none
  have hmembers := settings.nextMember.toNat_lt
  obtain ⟨p, hp⟩ := Progress.run_ends Hierarchy.empty settings [source] {}
    (show settings.nextMember.toNat + 0 ≤ _ by omega)
    (show settings.nextClass.toNat + 1 ≤ _ by omega)
  let run : FinishedRun := ⟨Hierarchy.empty, settings, [source], {}, p, hp⟩
  obtain ⟨newName, hnewName⟩ := Option.isSome_iff_exists.mp
    (run.isSome_className? (Option.isSome_of_eq_some h.classes)
      (List.mem_singleton_self source) (h.excludes_eq_false name))
  have hmem := run.classNamed_mem_log rfl hnewName
  obtain ⟨id, ⟨i, _, hi, hid⟩, hname⟩ := run.exists_numbersClass h.classes hmem
  have hlength := (List.getElem?_eq_some_iff.mp hi).1
  have hend := run.nextClass_eq
  have hle : run.after.outcome.nextClass.toNat ≤ settings.nextClass.toNat + 1 := run.nextClass_le
  have hsettings : run.settings.nextClass.toNat = settings.nextClass.toNat := rfl
  refine ⟨run, rfl, by omega, ?_⟩
  rwa [hname, show id = settings.nextClass.toNat + 1 by omega] at hmem

/-- For any choice of names there is a chain of runs that gives each number to the class of that
    name. -/
theorem exists_chain (names : Nat → String) (count : Nat) (h : NamesAll naming settings)
    (hroom : settings.nextClass.toNat + count ≤ 4294967295) :
    ∃ runs : List FinishedRun, runs.IsChain Continues ∧
      (∀ run ∈ runs, NamesAll naming run.settings) ∧
      (∀ first ∈ runs.head?, first.settings = settings) ∧
      ∀ id, settings.nextClass.toNat < id → id ≤ settings.nextClass.toNat + count →
        ∃ run ∈ runs, Event.classNamed (names id) (newClassName naming id (names id)) ∈
          run.after.log := by
  induction count generalizing settings with
  | zero => exact ⟨[], List.isChain_nil, by simp, by simp, fun id _ _ => by omega⟩
  | succ count ih =>
    obtain ⟨run, hsettings, hend, hnamed⟩ := exists_run_single h (by omega)
      (names (settings.nextClass.toNat + 1))
    have hnext : (settings.record run.after.outcome).nextClass.toNat =
        settings.nextClass.toNat + 1 := hend
    obtain ⟨later, hchain, hall, hhead, hids⟩ := ih (h.record run.after.outcome) (by omega)
    refine ⟨run :: later, ?_, ?_, ?_, ?_⟩
    · refine List.isChain_cons.mpr ⟨fun next hnext => ?_, hchain⟩
      rw [Continues, hhead next hnext]
      rfl
    · rw [List.forall_mem_cons]
      exact ⟨hsettings ▸ h, hall⟩
    · simpa using hsettings
    · intro id hlow hhigh
      rw [hnext] at hids
      by_cases hfirst : id = settings.nextClass.toNat + 1
      · exact ⟨run, List.mem_cons_self, hfirst ▸ hnamed⟩
      · obtain ⟨other, hother, hmem⟩ := hids id (by omega) (by omega)
        exact ⟨other, List.mem_cons_of_mem _ hother, hmem⟩

end FinishedRun

/-! ## Formats that do not keep names apart -/

namespace ClassNaming

open FormatPiece (ones)

/-- The number whose digits are all 1. -/
def repunit : (length : Nat) → Nat
  | 0 => 0
  | length + 1 => 10 * repunit length + 1

theorem toString_repunit (length : Nat) :
    (toString (repunit (length + 1))).toList = ones (length + 1) := by
  rw [Nat.toString_eq_repr, Nat.toList_repr]
  induction length with
  | zero => rfl
  | succ length ih =>
    rw [repunit, ← Nat.toDigits_append_toDigits (by omega) (by simp [repunit]) (by omega), ih]
    exact FormatPiece.ones_append_ones (length + 1) 1

theorem repunit_mono : Monotone repunit := by
  refine monotone_nat_of_le_succ fun length => ?_
  rw [repunit]
  omega

/-- A class whose name is a row of ones is not inside another. -/
theorem newClassName_ones (naming : ClassNaming) (id length : Nat) :
    (newClassName naming id (String.ofList (ones length))).toList =
      naming.packageLead.toList ++
        naming.pieces.flatMap (FormatPiece.fill (toString id).toList (ones length)) := by
  have hnot {c : Char} (hc : c ≠ '1') : c ∉ (String.ofList (ones length)).toList := by
    rw [String.toList_ofList]
    exact fun hmem => hc (List.eq_of_mem_replicate hmem)
  have hsimple := Text.afterLast_of_not_mem (hnot (c := '/') (by decide))
  have houter : enclosing? (String.ofList (ones length)) = none := by
    rw [enclosing?, Text.cutAtLast?_eq_none_iff.mpr (hnot (by decide))]
  rw [newClassName, hsimple, houter, String.toList_append, formatName_toList,
    String.toList_ofList]

/-- In a format that does not separate and has no digits of its own, the class `11..1` with the
    number 1 has the same name as the class `1` with the number `11..1`. -/
theorem newClassName_ones_eq {naming : ClassNaming}
    (hdigits : ∀ c ∈ FormatPiece.ownChars naming.pieces, c.isDigit = false)
    (h : ¬naming.Separates) :
    newClassName naming 1 (String.ofList (ones (naming.pieces.count .number + 1))) =
      newClassName naming (repunit (naming.pieces.count .oldName + 1))
        (String.ofList (ones 1)) := by
  apply String.toList_inj.mp
  rw [newClassName_ones, newClassName_ones, toString_repunit, show 1 = repunit 1 from rfl,
    toString_repunit 0]
  exact congrArg (naming.packageLead.toList ++ ·) (FormatPiece.fill_ones_eq hdigits h)

/-- A format without digits of its own that keeps names apart separates numbers from old names.
    Otherwise a chain of runs reaches two numbers with the same name: with nine places for old
    names at most, the larger one has ten digits at most. -/
theorem separates_of_keepsApart {naming : ClassNaming}
    (hid : Text.contains naming.format idPlaceholder = true)
    (hdigits : ∀ c ∈ FormatPiece.ownChars naming.pieces, c.isDigit = false)
    (hfew : naming.pieces.count .oldName ≤ 9) (h : naming.KeepsApart) : naming.Separates := by
  by_contra hseparates
  set m := naming.pieces.count .number
  set k := naming.pieces.count .oldName
  have hnumber : 0 < m := List.count_pos_iff.mpr (number_mem_pieces hid)
  have hold : 0 < k := List.count_pos_iff.mpr (not_not.mp (not_or.mp hseparates).1)
  have hlow : repunit 2 ≤ repunit (k + 1) := repunit_mono (by omega)
  have hhigh : repunit (k + 1) ≤ repunit 10 := repunit_mono (by omega)
  have htwo : repunit 2 = 11 := rfl
  have hten : repunit 10 = 1111111111 := rfl
  let settings : Settings := { classes := some naming }
  have hnames : FinishedRun.NamesAll naming settings :=
    ⟨rfl, by simp [settings, Settings.problem?, hid], rfl⟩
  let names : Nat → String := fun id => String.ofList (ones (if id = 1 then m + 1 else 1))
  have hstart : settings.nextClass.toNat = 0 := rfl
  obtain ⟨runs, hchain, hruns, -, hnamed⟩ :=
    FinishedRun.exists_chain names (repunit (k + 1)) hnames (by omega)
  obtain ⟨first, hfirst, hfirstNamed⟩ := hnamed 1 (by omega) (by omega)
  obtain ⟨second, hsecond, hsecondNamed⟩ := hnamed (repunit (k + 1)) (by omega) (by omega)
  have hone : names 1 = String.ofList (ones (m + 1)) := rfl
  have hother : names (repunit (k + 1)) = String.ofList (ones 1) := by
    simp only [names, if_neg (show repunit (k + 1) ≠ 1 by omega)]
  rw [hone] at hfirstNamed
  rw [hother] at hsecondNamed
  refine h runs hchain (fun run hrun => ⟨(hruns run hrun).classes, (hruns run hrun).problem?⟩)
    first hfirst second hsecond _ _ _ _ hfirstNamed hsecondNamed ?_ ?_
  · intro heq
    have hlength := congrArg List.length (String.ofList_inj.mp heq)
    simp only [ones, List.length_replicate] at hlength
    omega
  · exact newClassName_ones_eq hdigits hseparates

end ClassNaming

/-- A format that separates numbers from old names keeps the names of classes apart: over every
    chain of runs with such settings, different classes are given different names. For formats
    that have no digits of their own and at most nine places for old names it is the only kind
    that does. -/
theorem classNames_apart (naming : ClassNaming) :
    (naming.Separates → naming.KeepsApart) ∧
    (Text.contains naming.format ClassNaming.idPlaceholder = true →
      (∀ c ∈ FormatPiece.ownChars naming.pieces, c.isDigit = false) →
      naming.pieces.count .oldName ≤ 9 → naming.KeepsApart → naming.Separates) := by
  refine ⟨fun h => ?_, ClassNaming.separates_of_keepsApart⟩
  intro runs hchain hruns first hfirst second hsecond a b newA newB hnewA hnewB hne hsame
  obtain ⟨hnaming, hvalid⟩ := hruns first hfirst
  have hnumber := ClassNaming.number_mem_pieces (ClassNaming.contains_of_problem? hnaming hvalid)
  obtain ⟨idA, hidA, rfl⟩ := first.exists_numbersClass hnaming hnewA
  obtain ⟨idB, hidB, rfl⟩ := second.exists_numbersClass (hruns second hsecond).1 hnewB
  obtain rfl := Progress.number_eq_of_newClassName_eq hnumber h hsame
  exact hne (FinishedRun.eq_of_numbersClass hchain hfirst hsecond hidA hidB)

/-- The usual format has an underscore between the number and the old name. -/
theorem classNames_apart_usual : ClassNaming.Separates {} ∧ ClassNaming.KeepsApart {} := by
  have hseparates : ClassNaming.Separates {} :=
    Or.inr ⟨"Class".toList.map .char ++ [.number], '_', [.oldName], by decide, by decide, by decide⟩
  exact ⟨hseparates, (classNames_apart {}).1 hseparates⟩

/-! ### A format in which number and old name touch -/

/-- Settings that name classes by number and old name without anything in between. -/
def touchingSettings : Settings := { classes := some { format := "C\x7bid\x7d\x7bobf\x7d" } }

/-- Ten classes, of which the first is called like the last behind a digit. -/
def touchingClasses : List SourceClass :=
  ["0a", "0b", "0c", "0d", "0e", "0f", "0g", "0h", "0i", "a"].map (SourceClass.new · none)

theorem touchingClasses_ordered :
    Progress.classesInOrder .standard touchingSettings touchingClasses = touchingClasses :=
  Progress.classesInOrder_eq_self (by decide) (by decide +kernel)

/-- The first class has the number 1 and the tenth the number 10, and both get the same name. -/
theorem classNames_collide :
    touchingSettings.problem? = none ∧ (touchingClasses.map (·.name)).Nodup ∧
    ∃ p, synthesize touchingSettings touchingClasses {} = some p ∧
      Event.classNamed "0a" "C10a" ∈ p.log ∧ Event.classNamed "a" "C10a" ∈ p.log := by
  refine ⟨by decide, by decide, ?_⟩
  have hrun : (synthesize touchingSettings touchingClasses {}).map (fun p =>
      (p.log.contains (.classNamed "0a" "C10a"), p.log.contains (.classNamed "a" "C10a"))) =
        some (true, true) := by
    unfold synthesize synthesizeWith Progress.run
    rw [touchingClasses_ordered]
    decide +kernel
  obtain ⟨p, hp, hnames⟩ := Option.map_eq_some_iff.mp hrun
  obtain ⟨hfirst, hlast⟩ := Prod.mk.inj hnames
  exact ⟨p, hp, by simpa using hfirst, by simpa using hlast⟩

end Nomenclator
