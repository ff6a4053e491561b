import Nomenclator.Proofs.ClassNameAgreement
import Nomenclator.Proofs.InnerNames

/-!
# Class names are renamed part by part

The name of a class is cut at its last `$`, what stands before it is cut again, and so on as
long as there is text on both sides. Each part is renamed by the entry of the name that ends
with it, and the new parts are joined again. What is cut off is put back where it was, so a
name with empty parts, such as `a$$b`, `$a` or `a$`, keeps all its `$`.

Results:
* `joined_nameParts`: the parts of a name, joined, are the name.
* `reflTransGen_cutsTo_iff`: the parts end where cutting arrives.
* `Renames.mapClassName_eq_joined`: the new name of a class is its renamed parts, joined.
* `Renames.mapClassNameWithin_eq`: how many calls the new name of a class takes.
* `Renames.mapClassName_local`: the new name of a class is found, and depends on the entries of
  the names that cutting arrives at and on no others; without any the name stays.
-/

namespace Nomenclator

open Relation (ReflTransGen)

/-! ## Cutting a name -/

/-- What is left of a name that is cut at its last `$`, with text on both sides of it. -/
def CutsTo (name outer : String) : Prop :=
  ∃ inner, name = outer ++ "$" ++ inner ∧ '$' ∉ inner.toList ∧ outer ≠ "" ∧ inner ≠ ""

theorem cutsTo_iff {name outer : String} :
    CutsTo name outer ↔ ∃ inner, enclosing? name = some (outer, inner) := by
  simp only [CutsTo, enclosing?_eq_some_iff]

/-- A part of the name of a class. -/
structure NamePart where
  /-- The name up to the end of the part. -/
  whole : String
  /-- The part itself. -/
  own : String

/-- The parts of a name from the outside in. The first is a name that cannot be cut. -/
def nameParts (name : String) : List NamePart :=
  match _ : enclosing? name with
  | some (outer, inner) => nameParts outer ++ [⟨name, inner⟩]
  | none => [⟨name, name⟩]
termination_by name.toList.length
decreasing_by exact enclosing?_shorter ‹_›

theorem nameParts_of_enclosing {name outer inner : String}
    (h : enclosing? name = some (outer, inner)) :
    nameParts name = nameParts outer ++ [⟨name, inner⟩] := by
  rw [nameParts]
  split <;> simp_all

theorem nameParts_of_uncut {name : String} (h : enclosing? name = none) :
    nameParts name = [⟨name, name⟩] := by
  rw [nameParts]
  split <;> simp_all

theorem nameParts_ne_nil (name : String) : nameParts name ≠ [] := by
  rw [nameParts]
  split <;> simp

/-- A name is cut and joined again without loss. -/
theorem joined_nameParts (name : String) :
    Text.joined "$" ((nameParts name).map NamePart.own) = name := by
  fun_induction nameParts name with
  | case1 name outer inner henclosing ih =>
    have hparts : (nameParts outer).map NamePart.own ≠ [] := by simp [nameParts_ne_nil]
    obtain ⟨hname, -⟩ := enclosing?_eq_some_iff.mp henclosing
    rw [List.map_append, List.map_singleton, joined_append_singleton hparts, qualifiedName, ih,
      hname]
  | case2 name henclosing => rfl

/-- The parts end where cutting arrives, in any number of steps. -/
theorem reflTransGen_cutsTo_iff {name outer : String} :
    ReflTransGen CutsTo name outer ↔ ∃ part ∈ nameParts name, part.whole = outer := by
  -- A name is cut in one way only, so cutting arrives at the name or goes on from there.
  fun_induction nameParts name with
  | case1 name front inner henclosing ih =>
    have hcut : ∀ next, CutsTo name next ↔ next = front := by
      intro next
      rw [cutsTo_iff, henclosing]
      simp [eq_comm]
    rw [ReflTransGen.cases_head_iff]
    simp [hcut, ih, or_and_right, exists_or, or_comm]
  | case2 name henclosing =>
    have hcut : ∀ next, ¬CutsTo name next := by
      intro next
      rw [cutsTo_iff, henclosing]
      simp
    rw [ReflTransGen.cases_head_iff]
    simp [hcut]

/-- There is at most one part more than there are `$` in the name. -/
theorem length_nameParts_le (name : String) :
    (nameParts name).length ≤ name.toList.count '$' + 1 := by
  fun_induction nameParts name with
  | case1 name outer inner henclosing ih =>
    obtain ⟨rfl, -⟩ := enclosing?_eq_some_iff.mp henclosing
    simp only [String.toList_append, List.count_append, List.length_append, List.length_singleton]
    have hdollar : "$".toList.count '$' = 1 := by decide
    omega
  | case2 name henclosing => simp

/-! ## Renaming the parts -/

namespace Renames

variable {renames others : Renames}

/-- The new name of a part, or the part as it is. -/
def partName (renames : Renames) (part : NamePart) : String :=
  (renames.className? part.whole).getD part.own

theorem mapClassName_of_uncut (renames : Renames) {name : String} (h : enclosing? name = none) :
    renames.mapClassName name = (renames.className? name).getD name := by
  rw [mapClassName]
  split <;> simp_all

theorem mapClassName_eq_joined (renames : Renames) (name : String) :
    renames.mapClassName name = Text.joined "$" ((nameParts name).map renames.partName) := by
  fun_induction nameParts name with
  | case1 name outer inner henclosing ih =>
    have hparts : (nameParts outer).map renames.partName ≠ [] := by simp [nameParts_ne_nil]
    rw [mapClassName_eq_of_enclosing renames henclosing, ih, List.map_append, List.map_singleton,
      joined_append_singleton hparts]
    rfl
  | case2 name henclosing => exact mapClassName_of_uncut renames henclosing

/-- Parts that no entry renames stay as they are. -/
theorem map_partName_eq {parts : List NamePart}
    (h : ∀ part ∈ parts, renames.className? part.whole = none) :
    parts.map renames.partName = parts.map NamePart.own := by
  apply List.map_congr_left
  intro part hpart
  rw [partName, h part hpart, Option.getD_none]

/-- Entries that agree on where the parts end rename them alike. -/
theorem map_partName_congr {parts : List NamePart}
    (h : ∀ part ∈ parts, others.className? part.whole = renames.className? part.whole) :
    parts.map others.partName = parts.map renames.partName := by
  apply List.map_congr_left
  intro part hpart
  rw [partName, partName, h part hpart]

/-- The full new name of a class if it takes no more than this many calls, of which each cuts
    the name once. -/
def mapClassNameWithin (renames : Renames) : Nat → String → Option String
  | 0, _ => none
  | calls + 1, name =>
    match enclosing? name with
    | some (outer, inner) =>
      (renames.mapClassNameWithin calls outer).map fun mapped =>
        mapped ++ "$" ++ (renames.className? name).getD inner
    | none => some ((renames.className? name).getD name)

/-- There is one call for each part. -/
theorem mapClassNameWithin_eq (renames : Renames) (calls : Nat) (name : String) :
    renames.mapClassNameWithin calls name =
      if (nameParts name).length ≤ calls then some (renames.mapClassName name) else none := by
  induction calls generalizing name with
  | zero => simp [mapClassNameWithin, nameParts_ne_nil]
  | succ calls ih =>
    rw [mapClassNameWithin]
    split
    · next outer inner henclosing =>
      rw [ih, nameParts_of_enclosing henclosing, mapClassName_eq_of_enclosing renames henclosing]
      by_cases hcalls : (nameParts outer).length ≤ calls <;> simp [hcalls]
    · next henclosing =>
      rw [nameParts_of_uncut henclosing, mapClassName_of_uncut renames henclosing]
      simp

/-- The new name of a class takes at most one call more than there are `$` in the old one. It
    consists of the parts of the old name, each renamed by the entry of the name that ends with
    it; these are the name itself and the names that repeated cutting at the last `$` arrives
    at. Other entries make no difference to it. If none of these names has a new one, the class
    keeps its name and is resolved to nothing. -/
theorem mapClassName_local (renames : Renames) (name : String) :
    (∀ calls > name.toList.count '$',
      renames.mapClassNameWithin calls name = some (renames.mapClassName name)) ∧
    (∀ others : Renames,
      (∀ outer, ReflTransGen CutsTo name outer →
        others.className? outer = renames.className? outer) →
      others.mapClassName name = renames.mapClassName name) ∧
    ((∀ outer, ReflTransGen CutsTo name outer → renames.className? outer = none) →
      renames.mapClassName name = name ∧ renames.resolveClass name = none) ∧
    (∀ outer, ReflTransGen CutsTo name outer ↔ ∃ part ∈ nameParts name, part.whole = outer) ∧
    Text.joined "$" ((nameParts name).map NamePart.own) = name ∧
    renames.mapClassName name = Text.joined "$" ((nameParts name).map renames.partName) := by
  -- Both the entries that matter and the text that stays are read off the parts.
  have hends : ∀ part ∈ nameParts name, ReflTransGen CutsTo name part.whole :=
    fun part hpart => reflTransGen_cutsTo_iff.mpr ⟨part, hpart, rfl⟩
  refine ⟨?_, ?_, ?_, fun outer => reflTransGen_cutsTo_iff, joined_nameParts name,
    mapClassName_eq_joined renames name⟩
  · intro calls hcalls
    have hlength := length_nameParts_le name
    rw [mapClassNameWithin_eq, if_pos (by omega)]
  · intro others hagree
    rw [mapClassName_eq_joined, mapClassName_eq_joined,
      map_partName_congr fun part hpart => hagree _ (hends part hpart)]
  · intro hnone
    have hself : renames.mapClassName name = name := by
      rw [mapClassName_eq_joined, map_partName_eq fun part hpart => hnone _ (hends part hpart),
        joined_nameParts]
    exact ⟨hself, by rw [resolveClass, if_pos hself]⟩

/-- The only class with a new name is `a`, and cutting `a$$b` does not arrive at it. -/
def strayName : Renames := setClassName {} "a" "net/World"

theorem nameParts_doubled : nameParts "a$$b" = [⟨"a$", "a$"⟩, ⟨"a$$b", "b"⟩] := by
  rw [nameParts_of_enclosing (show enclosing? "a$$b" = some ("a$", "b") by decide),
    nameParts_of_uncut (show enclosing? "a$" = none by decide)]
  rfl

theorem mapClassName_local_doubled :
    strayName.className? "a" = some "net/World" ∧
    (∀ outer, ReflTransGen CutsTo "a$$b" outer → strayName.className? outer = none) ∧
    strayName.mapClassNameWithin 3 "a$$b" = some "a$$b" ∧
    strayName.mapClassName "a$$b" = "a$$b" ∧ strayName.resolveClass "a$$b" = none ∧
    mapClassName {} "a$$b" = "a$$b" := by
  obtain ⟨hcalls, hothers, hself, hparts, -, -⟩ := strayName.mapClassName_local "a$$b"
  have hnone : ∀ outer, ReflTransGen CutsTo "a$$b" outer → strayName.className? outer = none := by
    intro outer hreached
    obtain ⟨part, hpart, rfl⟩ := (hparts outer).mp hreached
    rw [nameParts_doubled] at hpart
    simp only [List.mem_cons, List.not_mem_nil, or_false] at hpart
    rcases hpart with rfl | rfl <;> decide
  obtain ⟨hmapped, hresolved⟩ := hself hnone
  refine ⟨by decide, hnone, ?_, hmapped, hresolved, ?_⟩
  · rw [hcalls 3 (by decide), hmapped]
  · rw [hothers {} fun outer hreached => (hnone outer hreached).symm, hmapped]

end Renames

end Nomenclator
