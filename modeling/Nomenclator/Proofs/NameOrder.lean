import Mathlib.Data.List.Forall2
import Mathlib.Data.List.Nodup
import Nomenclator.Naming.Synthesis

/-!
# The order of classes and members

Whatever the lower-case expansions of characters are, names without regard to case are in a
total order in which only equal names compare as equal. So sorted lists of classes with
different names, and of members that differ in name or descriptor, do not depend on the
order in which they were given.

Results:
* `Text.transCmp_compareIgnoringCase`, `Text.lawfulEqCmp_compareIgnoringCase`: the order is
  total, and equal in it are equal names.
* `mergeSort_eq_of_perm`: what no two items share decides where they stand.
* `membersInOrder_eq_of_perm`, `classesInOrder_eq_of_perm`: sorted members and classes do not
  depend on the order given.
* `forall₂_classesInOrder`: classes with the same names are sorted alike.
-/

namespace Nomenclator

open Std (TransCmp LawfulEqCmp OrientedCmp)

/-! ## A total order of names -/

namespace Text

instance transCmp_compareIgnoringCase (lower : Char → List Char) :
    TransCmp (compareIgnoringCase lower) :=
  inferInstanceAs (TransCmp (compareLex (compareOn (lowered lower)) (compareOn id)))

instance lawfulEqCmp_compareIgnoringCase (lower : Char → List Char) :
    LawfulEqCmp (compareIgnoringCase lower) where
  eq_of_compare {a b} h := by
    have hexact : compare a b = .eq := (Ordering.then_eq_eq.mp h).2
    exact LawfulEqCmp.eq_of_compare hexact

end Text

/-! ## Sorting -/

section Sorting

variable {α : Type}

theorem isLE_total (cmp : α → α → Ordering) [OrientedCmp cmp] (a b : α) :
    ((cmp a b).isLE || (cmp b a).isLE) = true := by
  have hswap : cmp a b = (cmp b a).swap := OrientedCmp.eq_swap
  rw [hswap]
  cases cmp b a <;> rfl

/-- Lists with the same items are sorted alike if different items compare as different. -/
theorem mergeSort_eq_of_perm {cmp : α → α → Ordering} [TransCmp cmp] {items others : List α}
    (h : items.Perm others) (hkey : ∀ a ∈ items, ∀ b ∈ items, cmp a b = .eq → a = b) :
    items.mergeSort (fun a b => (cmp a b).isLE) = others.mergeSort fun a b => (cmp a b).isLE := by
  have hsorted : ∀ list : List α,
      (list.mergeSort fun a b => (cmp a b).isLE).Pairwise fun a b => (cmp a b).isLE = true :=
    List.pairwise_mergeSort (fun _ _ _ => TransCmp.isLE_trans) (isLE_total cmp)
  refine List.Perm.eq_of_pairwise ?_ (hsorted items) (hsorted others) ?_
  · intro a b ha hb hab hba
    rw [List.mem_mergeSort] at ha hb
    exact hkey a ha b (h.mem_iff.mpr hb) (OrientedCmp.isLE_antisymm hab hba)
  · exact (List.mergeSort_perm items _).trans (h.trans (List.mergeSort_perm others _).symm)

/-- Lists whose items are related one by one are sorted alike if the order does not tell
    related items apart. -/
theorem forall₂_mergeSort {R : α → α → Prop} {le : α → α → Bool} {items others : List α}
    (h : List.Forall₂ R items others)
    (hle : ∀ a a' b b', R a a' → R b b' → le a b = le a' b') :
    List.Forall₂ R (items.mergeSort le) (others.mergeSort le) := by
  -- Sort the pairs by their first components; both lists are what is left of them.
  obtain ⟨hlength, hpairs⟩ := List.forall₂_iff_zip.mp h
  have hfst : (items.zip others).map Prod.fst = items := List.map_fst_zip (Nat.le_of_eq hlength)
  have hsnd : (items.zip others).map Prod.snd = others :=
    List.map_snd_zip (Nat.le_of_eq hlength.symm)
  have hitems := List.map_mergeSort (r := fun a b => le a.1 b.1) (s := le) (f := Prod.fst)
    (l := items.zip others) fun _ _ _ _ => rfl
  have hothers := List.map_mergeSort (r := fun a b => le a.1 b.1) (s := le) (f := Prod.snd)
    (l := items.zip others) fun a ha b hb => hle _ _ _ _ (hpairs ha) (hpairs hb)
  rw [hfst] at hitems
  rw [hsnd] at hothers
  rw [← hitems, ← hothers, List.forall₂_map_left_iff, List.forall₂_map_right_iff,
    List.forall₂_same]
  intro pair hpair
  exact hpairs (List.mem_mergeSort.mp hpair)

end Sorting

/-! ## Members and classes -/

namespace Progress

/-- How members compare: by name without regard to case, then by descriptor. -/
def compareMembers (lower : Char → List Char) : SourceMember → SourceMember → Ordering :=
  compareLex (fun a b => Text.compareIgnoringCase lower a.name b.name)
    (compareOn SourceMember.descriptor)

theorem membersInOrder_eq (conventions : Conventions) (members : List SourceMember) :
    membersInOrder conventions members =
      members.mergeSort fun a b => (compareMembers conventions.lower a b).isLE := rfl

theorem transCmp_compareNames {α : Type} (lower : Char → List Char) (name : α → String) :
    TransCmp fun a b => Text.compareIgnoringCase lower (name a) (name b) where
  eq_swap := (Text.transCmp_compareIgnoringCase lower).eq_swap
  isLE_trans := (Text.transCmp_compareIgnoringCase lower).isLE_trans

instance transCmp_compareMembers (lower : Char → List Char) : TransCmp (compareMembers lower) :=
  have := transCmp_compareNames lower SourceMember.name
  inferInstanceAs (TransCmp (compareLex _ _))

theorem membersInOrder_eq_of_perm (conventions : Conventions) {members others : List SourceMember}
    (h : members.Perm others)
    (hdistinct : (members.map fun member => (member.name, member.descriptor)).Nodup) :
    membersInOrder conventions members = membersInOrder conventions others := by
  rw [membersInOrder_eq, membersInOrder_eq]
  refine mergeSort_eq_of_perm h ?_
  intro a ha b hb hab
  obtain ⟨hname, hdescriptor⟩ := compareLex_eq_eq.mp hab
  have hname : a.name = b.name := LawfulEqCmp.eq_of_compare hname
  have hdescriptor : a.descriptor = b.descriptor := LawfulEqCmp.eq_of_compare hdescriptor
  exact List.inj_on_of_nodup_map hdistinct ha hb (by rw [hname, hdescriptor])

theorem classesInOrder_eq_of_perm (conventions : Conventions) (settings : Settings)
    {classes others : List SourceClass} (h : classes.Perm others)
    (hnames : (classes.map SourceClass.name).Nodup) :
    classesInOrder conventions settings classes = classesInOrder conventions settings others := by
  have := transCmp_compareNames conventions.lower SourceClass.name
  refine mergeSort_eq_of_perm (h.filter _) ?_
  intro a ha b hb hab
  have hname := LawfulEqCmp.eq_of_compare hab
  exact List.inj_on_of_nodup_map hnames (List.mem_of_mem_filter ha) (List.mem_of_mem_filter hb)
    hname

/-- Classes that are in order already stay as they are. -/
theorem classesInOrder_eq_self {conventions : Conventions} {settings : Settings}
    {classes : List SourceClass}
    (hexcludes : ∀ source ∈ classes, settings.excludes source.name = false)
    (horder : classes.Pairwise fun a b =>
      (Text.compareIgnoringCase conventions.lower a.name b.name).isLE = true) :
    classesInOrder conventions settings classes = classes := by
  have hall : (classes.filter fun source => !settings.excludes source.name) = classes :=
    List.filter_eq_self.mpr fun source hsource => by rw [hexcludes source hsource]; rfl
  rw [classesInOrder, hall]
  exact List.mergeSort_of_pairwise horder

/-- Classes that have the same names one by one stay side by side in order. -/
theorem forall₂_classesInOrder (conventions : Conventions) (settings : Settings)
    {R : SourceClass → SourceClass → Prop} (hR : ∀ a b, R a b → b.name = a.name)
    {classes others : List SourceClass} (h : List.Forall₂ R classes others) :
    List.Forall₂ R (classesInOrder conventions settings classes)
      (classesInOrder conventions settings others) := by
  refine forall₂_mergeSort (List.rel_filter ?_ h) ?_
  · intro a b hab
    simp only [hR a b hab]
  · intro a a' b b' ha hb
    rw [hR a a' ha, hR b b' hb]

end Progress

end Nomenclator
