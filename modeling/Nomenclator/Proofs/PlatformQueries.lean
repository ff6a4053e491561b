import Mathlib.Data.List.Basic
import Mathlib.Data.List.Induction
import Mathlib.Tactic.SplitIfs
import Nomenclator.Hierarchy.Layer

/-!
# What the index of platform classes answers

Classes are listed under their names with slashes, and one that is inserted later replaces one
of the same name. Whether a class is listed can be asked with any form of its name. The class
itself is looked for under a name with a slash as it stands, so it is not found under a name
that has dots as well.

Results:
* `isLast_append_singleton_iff`: what one more class changes about which class is the last of
  a name.
* `Lists.insert`, `Reached.lists`: an index lists the last class inserted under each name; the
  step and the run.
* `Reached.queries_agree_iff`: whether a class is listed and which class it is, after any
  insertions, and exactly which names the two questions treat differently.
-/

namespace Nomenclator

/-- The name has both slashes and dots in it. -/
def MixesSeparators (name : String) : Prop := '/' ∈ name.toList ∧ '.' ∈ name.toList

instance (name : String) : Decidable (MixesSeparators name) :=
  inferInstanceAs (Decidable ('/' ∈ name.toList ∧ '.' ∈ name.toList))

namespace PlatformIndex

/-- A name without dots is its own internal name. -/
theorem internalName_of_no_dot {name : String} (h : '.' ∉ name.toList) :
    internalName name = name := by
  have hmap : (name.toList.map fun c => if c = '.' then '/' else c) = name.toList := by
    refine (List.map_congr_left fun c hc => ?_).trans (List.map_id _)
    have hdot : c ≠ '.' := fun e => h (e ▸ hc)
    simp [hdot]
  rw [internalName, Text.replaceChar, hmap, String.ofList_toList]

theorem no_dot_internalName (name : String) : '.' ∉ (internalName name).toList := by
  rw [internalName, Text.replaceChar, String.toList_ofList, List.mem_map]
  rintro ⟨c, -, hc⟩
  split_ifs at hc with hdot
  · exact absurd hc (by decide)
  · exact hdot hc

/-! ## The last class of a name -/

variable {history : List ClassShape} {index : PlatformIndex} {key : String}

/-- Of the classes of this name, written with slashes, this is the last. -/
def IsLast (history : List ClassShape) (key : String) (shape : ClassShape) : Prop :=
  ∃ earlier later, history = earlier ++ shape :: later ∧ internalName shape.name = key ∧
    ∀ other ∈ later, internalName other.name ≠ key

theorem IsLast.mem {shape : ClassShape} (h : IsLast history key shape) : shape ∈ history := by
  obtain ⟨earlier, later, rfl, -⟩ := h
  simp

theorem isLast_append_singleton_iff {added shape : ClassShape} :
    IsLast (history ++ [added]) key shape ↔
      (internalName added.name = key ∧ shape = added) ∨
        (internalName added.name ≠ key ∧ IsLast history key shape) := by
  constructor
  · rintro ⟨earlier, later, hhistory, hkey, hlater⟩
    -- The added class ends the list: it is the one in question or the end of the later ones.
    rcases later.eq_nil_or_concat' with rfl | ⟨later, last, rfl⟩
    · obtain ⟨-, hadded⟩ := List.append_inj' hhistory rfl
      obtain rfl := List.singleton_inj.mp hadded
      exact Or.inl ⟨hkey, rfl⟩
    · rw [← List.cons_append, ← List.append_assoc] at hhistory
      obtain ⟨hbefore, hadded⟩ := List.append_inj' hhistory rfl
      obtain rfl := List.singleton_inj.mp hadded
      rw [List.forall_mem_append, List.forall_mem_singleton] at hlater
      exact Or.inr ⟨hlater.2, earlier, later, hbefore, hkey, hlater.1⟩
  · rintro (⟨hkey, rfl⟩ | ⟨hne, earlier, later, rfl, hkey, hlater⟩)
    · exact ⟨history, [], rfl, hkey, by simp⟩
    · refine ⟨earlier, later ++ [added], by simp, hkey, ?_⟩
      rw [List.forall_mem_append, List.forall_mem_singleton]
      exact ⟨hlater, hne⟩

theorem exists_isLast_iff :
    (∃ shape, IsLast history key shape) ↔ ∃ shape ∈ history, internalName shape.name = key := by
  constructor
  · rintro ⟨shape, hlast⟩
    have hmem := hlast.mem
    obtain ⟨-, -, -, hkey, -⟩ := hlast
    exact ⟨shape, hmem, hkey⟩
  · rintro ⟨shape, hmem, hkey⟩
    induction history using List.reverseRecOn with
    | nil => cases hmem
    | append_singleton history added ih =>
      simp only [isLast_append_singleton_iff]
      by_cases hadded : internalName added.name = key
      · exact ⟨added, Or.inl ⟨hadded, rfl⟩⟩
      · have hbefore : shape ∈ history := by
          rcases List.mem_append.mp hmem with hmem | hmem
          · exact hmem
          · exact absurd (List.mem_singleton.mp hmem ▸ hkey) hadded
        obtain ⟨last, hlast⟩ := ih hbefore
        exact ⟨last, Or.inr ⟨hadded, hlast⟩⟩

/-! ## Indexes after insertions -/

/-- An index that is empty or the standard one at first, and the classes that were inserted
    into it, in order; those of the standard one come first. -/
inductive Reached : List ClassShape → PlatformIndex → Prop
  | empty : Reached [] {}
  | standard : Reached (Platform.entries.map Platform.Entry.shape) standard
  | insert {history : List ClassShape} {index : PlatformIndex} (h : Reached history index)
      (added : ClassShape) : Reached (history ++ [added]) (index.insert added)

/-- The index has the last of the classes of each name under that name with slashes, which
    becomes the name of the class. -/
def Lists (history : List ClassShape) (index : PlatformIndex) : Prop :=
  ∀ key found, index.classes.find? key = some found ↔
    ∃ shape, IsLast history key shape ∧ found = { shape with name := key }

theorem empty_lists : Lists [] {} := by
  intro key found
  constructor
  · intro h
    cases h
  · rintro ⟨shape, ⟨earlier, later, hhistory, -⟩, -⟩
    simp at hhistory

/-- The step: a class is listed under its own name, and nothing else changes. -/
theorem Lists.insert (h : Lists history index) (added : ClassShape) :
    Lists (history ++ [added]) (index.insert added) := by
  intro key found
  simp only [isLast_append_singleton_iff]
  rw [PlatformIndex.insert, OrderedMap.insert]
  by_cases hkey : internalName added.name = key
  · subst hkey
    simp [eq_comm]
  · rw [OrderedMap.find?_update_of_ne _ (Ne.symm hkey), h]
    simp [hkey]

theorem Lists.foldl (h : Lists history index) (more : List ClassShape) :
    Lists (history ++ more) (more.foldl PlatformIndex.insert index) := by
  induction more generalizing history index with
  | nil => rwa [List.append_nil]
  | cons added more ih => simpa using ih (h.insert added)

/-- The run: any insertions, beginning with either index. -/
theorem Reached.lists (h : Reached history index) : Lists history index := by
  induction h with
  | empty => exact empty_lists
  | standard => exact empty_lists.foldl _
  | insert _ added ih => exact ih.insert added

/-! ## The two questions -/

theorem Lists.contains_iff (h : Lists history index) (name : String) :
    index.contains name = true ↔
      ∃ shape ∈ history, internalName shape.name = internalName name := by
  rw [contains, OrderedMap.contains, Option.isSome_iff_exists, ← exists_isLast_iff]
  constructor
  · rintro ⟨found, hfound⟩
    obtain ⟨shape, hlast, -⟩ := (h _ _).mp hfound
    exact ⟨shape, hlast⟩
  · rintro ⟨shape, hlast⟩
    exact ⟨_, (h _ _).mpr ⟨shape, hlast, rfl⟩⟩

/-- No class is listed under a name with dots, so a name with a slash finds what its form with
    slashes finds, or nothing. -/
theorem Lists.shape?_eq (h : Lists history index) (name : String) :
    index.shape? name =
      if MixesSeparators name then none else index.classes.find? (internalName name) := by
  by_cases hslash : '/' ∈ name.toList
  · rw [shape?, if_pos hslash]
    by_cases hdot : '.' ∈ name.toList
    · rw [if_pos ⟨hslash, hdot⟩, Option.eq_none_iff_forall_ne_some]
      intro found hfound
      obtain ⟨shape, ⟨earlier, later, -, hkey, -⟩, -⟩ := (h _ _).mp hfound
      exact no_dot_internalName shape.name (hkey ▸ hdot)
    · rw [if_neg fun hmixes => hdot hmixes.2, internalName_of_no_dot hdot]
  · rw [shape?, if_neg hslash, if_neg fun hmixes => hslash hmixes.1]

theorem Lists.shape?_eq_some_iff (h : Lists history index) (name : String) {found : ClassShape} :
    index.shape? name = some found ↔
      ¬MixesSeparators name ∧ ∃ shape, IsLast history (internalName name) shape ∧
        found = { shape with name := internalName name } := by
  rw [h.shape?_eq]
  by_cases hmixes : MixesSeparators name
  · simp [hmixes]
  · simpa [hmixes] using h (internalName name) found

/-- After any insertions, a class is listed under each form of its name. A name that mixes
    slashes and dots finds no class. Any other name finds the class that was inserted last under
    a form of it, with slashes in the name of that class. So to be listed and to be found are
    the same for all names except those that mix slashes and dots and are listed. -/
theorem Reached.queries_agree_iff (h : Reached history index) (name : String) :
    ((index.contains name = true ↔ (index.shape? name).isSome = true) ↔
      ¬(index.contains name = true ∧ MixesSeparators name)) ∧
    (index.contains name = true ↔
      ∃ shape ∈ history, internalName shape.name = internalName name) ∧
    ∀ found, index.shape? name = some found ↔
      ¬MixesSeparators name ∧ ∃ shape, IsLast history (internalName name) shape ∧
        found = { shape with name := internalName name } := by
  have hlists := h.lists
  refine ⟨?_, hlists.contains_iff name, fun found => hlists.shape?_eq_some_iff name⟩
  rw [hlists.shape?_eq, contains, OrderedMap.contains]
  by_cases hmixes : MixesSeparators name <;> simp [hmixes]

/-- A class whose name is written with slashes. -/
def slashedPanel : ClassShape := .new "javax/swing/JPanel" (some "javax/swing/JComponent")

/-- A class of the same name, written with dots. -/
def dottedPanel : ClassShape := .new "javax.swing.JPanel" (some "java/lang/Object")

theorem queries_agree_iff_reinserted :
    ∃ index,
      Reached (Platform.entries.map Platform.Entry.shape ++ [slashedPanel] ++ [dottedPanel])
        index ∧
      index.shape? "javax.swing.JPanel" = some { dottedPanel with name := "javax/swing/JPanel" } ∧
      index.contains "javax/swing.JPanel" = true ∧
      index.shape? "javax/swing.JPanel" = none := by
  have hreached := (Reached.standard.insert slashedPanel).insert dottedPanel
  have hlast : IsLast (Platform.entries.map Platform.Entry.shape ++ [slashedPanel] ++ [dottedPanel])
      "javax/swing/JPanel" dottedPanel := ⟨_, [], rfl, by decide, by simp⟩
  obtain ⟨-, -, hdots⟩ := hreached.queries_agree_iff "javax.swing.JPanel"
  obtain ⟨-, hlisted, hmixed⟩ := hreached.queries_agree_iff "javax/swing.JPanel"
  refine ⟨_, hreached, ?_, ?_, ?_⟩
  · exact (hdots _).mpr ⟨by decide, dottedPanel, hlast, by decide⟩
  · exact hlisted.mpr ⟨dottedPanel, by simp, by decide⟩
  · rw [Option.eq_none_iff_forall_ne_some]
    intro found hfound
    exact ((hmixed found).mp hfound).1 (by decide)

/-- A class that is listed under a name with slashes and dots but not found under it. -/
theorem listed_not_found :
    Reached [slashedPanel] (insert {} slashedPanel) ∧
    (insert {} slashedPanel).contains "javax/swing.JPanel" = true ∧
    (insert {} slashedPanel).shape? "javax/swing.JPanel" = none :=
  ⟨.insert .empty slashedPanel, by decide, by decide⟩

end PlatformIndex

end Nomenclator
