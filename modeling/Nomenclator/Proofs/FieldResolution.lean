import Nomenclator.Proofs.CompleteWalks

/-!
# Fields are found in the nearest superclass that names them

Fields are not virtual: a reference to one goes up from its owner through the superclasses, one
after the other, and no further than the classes that are known. The first class on this way
that has a new name for the field gives the name.

Results:
* `Graph.walk_found_iff_firstAlong`: where at most one name follows each, a walk finds what is
  first along the only way there is, also if the way is a loop.
* `fieldResolution_first`: what this says of fields, how long the walk takes, and that nothing
  but the superclasses of the known classes matters.
-/

namespace Nomenclator

open Relation (ReflTransGen)

/-! ## The only way through a graph -/

/-- A way of finitely many steps from a name to one at which the test gives something, where it
    gives nothing before. -/
structure FirstAlong {α : Type} (step : String → String → Prop) (test : String → Option α)
    (origin : String) (a : α) (steps : Nat) (way : Nat → String) : Prop where
  starts : way 0 = origin
  follows : ∀ i < steps, step (way i) (way (i + 1))
  found : test (way steps) = some a
  before : ∀ i < steps, test (way i) = none

namespace FirstAlong

variable {α : Type} {step : String → String → Prop} {test : String → Option α}
  {origin next : String} {a b : α} {steps others : Nat} {way other : Nat → String}

theorem here (h : test origin = some a) : FirstAlong step test origin a 0 fun _ => origin where
  starts := rfl
  follows i hi := absurd hi (Nat.not_lt_zero i)
  found := h
  before i hi := absurd hi (Nat.not_lt_zero i)

/-- One more step in front, from a name at which nothing is found. -/
theorem cons (h : FirstAlong step test next a steps way) (hstep : step origin next)
    (hnone : test origin = none) :
    FirstAlong step test origin a (steps + 1) (fun i => i.casesOn origin way) where
  starts := rfl
  follows i hi := by
    cases i with
    | zero =>
      show step origin (way 0)
      rw [h.starts]
      exact hstep
    | succ i => exact h.follows i (by omega)
  found := h.found
  before i hi := by
    cases i with
    | zero => exact hnone
    | succ i => exact h.before i (by omega)

theorem reflTransGen (h : FirstAlong step test origin a steps way) :
    ReflTransGen step origin (way steps) := by
  have hreach (i : Nat) : i ≤ steps → ReflTransGen step origin (way i) := by
    intro hi
    induction i with
    | zero => rw [h.starts]
    | succ i ih => exact (ih (by omega)).tail (h.follows i (by omega))
  exact hreach steps le_rfl

/-- Where at most one step leads on, two ways agree as long as both go on. -/
theorem way_eq (hunique : Relator.RightUnique step)
    (h : FirstAlong step test origin a steps way)
    (hother : FirstAlong step test origin b others other) {i : Nat} (hi : i ≤ steps)
    (hj : i ≤ others) : way i = other i := by
  induction i with
  | zero => rw [h.starts, hother.starts]
  | succ i ih =>
    have hstep := h.follows i (by omega)
    rw [ih (by omega) (by omega)] at hstep
    exact hunique hstep (hother.follows i (by omega))

theorem unique (hunique : Relator.RightUnique step)
    (h : FirstAlong step test origin a steps way)
    (hother : FirstAlong step test origin b others other) : a = b := by
  have hfound := h.found
  rcases Nat.lt_trichotomy steps others with hlt | rfl | hlt
  · rw [h.way_eq hunique hother le_rfl hlt.le, hother.before steps hlt] at hfound
    cases hfound
  · rw [h.way_eq hunique hother le_rfl le_rfl, hother.found] at hfound
    exact (Option.some.inj hfound).symm
  · have hnone := h.before others hlt
    rw [h.way_eq hunique hother hlt.le le_rfl, hother.found] at hnone
    cases hnone

end FirstAlong

namespace Graph

variable {α : Type} {graph : Graph} {test : String → Option α}

/-- At most one name follows each. -/
def IsLinear (graph : Graph) : Prop := ∀ name, (graph.next name).length ≤ 1

theorem IsLinear.rightUnique_edge (h : graph.IsLinear) : Relator.RightUnique graph.Edge := by
  intro name next other hnext hother
  have hlength := h name
  unfold Edge at hnext hother
  match hsuccessors : graph.next name with
  | [] => simp [hsuccessors] at hnext
  | [only] =>
    rw [hsuccessors, List.mem_singleton] at hnext hother
    rw [hnext, hother]
  | _ :: _ :: _ => simp [hsuccessors] at hlength

/-- What a walk through a linear graph finds is first along some way. At every point of such a
    walk there is at most one pending name. -/
theorem IsLinear.exists_firstAlong (h : graph.IsLinear) {visited pending : List String}
    (hpending : pending.length ≤ 1) {a : α}
    (hfound : (graph.walk test visited pending).found = some a) :
    ∃ origin ∈ pending, ∃ steps way, FirstAlong graph.Edge test origin a steps way := by
  fun_induction graph.walk test visited pending with
  | case1 visited => cases hfound
  | case2 visited name pending hvisited ih =>
    obtain ⟨origin, hmem, hfirst⟩ := ih (Nat.le_of_succ_le hpending) hfound
    exact ⟨origin, List.mem_cons_of_mem _ hmem, hfirst⟩
  | case3 visited name pending hfresh b htest =>
    exact ⟨name, List.mem_cons_self, 0, _, .here (htest.trans hfound)⟩
  | case4 visited name pending hfresh htest ih =>
    have hnil : pending = [] := List.length_eq_zero_iff.mp (by simpa using hpending)
    subst hnil
    rw [List.append_nil] at ih hfound
    obtain ⟨next, hnext, steps, way, hfirst⟩ := ih (h name) hfound
    exact ⟨name, List.mem_cons_self, steps + 1, _, hfirst.cons hnext htest⟩

/-- Along the only way through a linear graph a walk finds what is first. -/
theorem walk_found_iff_firstAlong (h : graph.IsLinear) (origin : String) (a : α) :
    (graph.walk test [] [origin]).found = some a ↔
      ∃ steps way, FirstAlong graph.Edge test origin a steps way := by
  constructor
  · intro hfound
    obtain ⟨start, hmem, hfirst⟩ := h.exists_firstAlong (by simp) hfound
    rwa [List.mem_singleton.mp hmem] at hfirst
  · rintro ⟨steps, way, hfirst⟩
    cases hfound : (graph.walk test [] [origin]).found with
    | none =>
      have hnone := (walk_found_eq_none_iff graph test [] [origin]).mp hfound (way steps)
        ((reaches_singleton_iff graph origin _).mpr hfirst.reflTransGen)
      rw [hfirst.found] at hnone
      cases hnone
    | some b =>
      obtain ⟨start, hmem, _, _, hother⟩ := h.exists_firstAlong (by simp) hfound
      rw [List.mem_singleton.mp hmem] at hother
      rw [hfirst.unique h.rightUnique_edge hother]

end Graph

/-! ## Superclasses -/

namespace Hierarchy

variable {hierarchy : Hierarchy}

/-- A step from a class to its superclass, which the hierarchy knows. -/
def KnownSuper (hierarchy : Hierarchy) (name super : String) : Prop :=
  ∃ shape, hierarchy.shape? name = some shape ∧ shape.superName = some super ∧
    hierarchy.knows super = true

/-- The hierarchies know the same classes, and give them the same superclasses. -/
def SameSupers (hierarchy other : Hierarchy) : Prop :=
  ∀ name, (hierarchy.shape? name).map (·.superName) = (other.shape? name).map (·.superName)

theorem mem_superNames_iff {name super : String} :
    super ∈ hierarchy.superNames name ↔
      ∃ shape, hierarchy.shape? name = some shape ∧ shape.superName = some super := by
  unfold superNames
  cases hierarchy.shape? name with
  | none => simp
  | some shape => simp

theorem knownSuperGraph_edge : hierarchy.knownSuperGraph.Edge = hierarchy.KnownSuper := by
  funext name super
  simp only [Graph.Edge, knownSuperGraph, KnownSuper, List.mem_filter, mem_superNames_iff,
    ← exists_and_right, and_assoc]

theorem isLinear_knownSuperGraph (hierarchy : Hierarchy) : hierarchy.knownSuperGraph.IsLinear := by
  intro name
  refine (List.length_filter_le _ _).trans ?_
  unfold superNames
  cases hierarchy.shape? name with
  | none => exact Nat.zero_le 1
  | some shape => cases shape.superName <;> simp

theorem SameSupers.knownSuper {other : Hierarchy} (h : hierarchy.SameSupers other) :
    hierarchy.KnownSuper = other.KnownSuper := by
  have hknows (name : String) : hierarchy.knows name = other.knows name := by
    have hname := congrArg Option.isSome (h name)
    rwa [Option.isSome_map, Option.isSome_map] at hname
  have hsuper (hierarchy : Hierarchy) (name super : String) :
      hierarchy.KnownSuper name super ↔
        (hierarchy.shape? name).map (·.superName) = some (some super) ∧
          hierarchy.knows super = true := by
    simp only [KnownSuper, Option.map_eq_some_iff, ← exists_and_right, and_assoc]
  funext name super
  rw [hsuper, hsuper, h name, hknows]

end Hierarchy

/-! ## References to fields -/

theorem Program.resolveField_endsWithin (hierarchy : Hierarchy) (renames : Renames)
    (owner field : String) :
    (resolveField renames owner field).EndsWithin hierarchy.shape? (hierarchy.known.length + 1)
      (renames.resolveField hierarchy owner field) := by
  have hends := search_endsWithin_known
    (Inquiry.lookForName_follows_supers hierarchy fun current => renames.fieldName? current field)
    (fun _ _ hedge => (List.mem_filter.mp hedge).2) owner
  exact hends.map Walk.found

theorem Renames.resolveField_eq_some_iff (hierarchy : Hierarchy) (renames : Renames)
    (owner field newName : String) :
    renames.resolveField hierarchy owner field = some newName ↔
      ∃ steps way, FirstAlong hierarchy.KnownSuper
        (fun current => renames.fieldName? current field) owner newName steps way := by
  rw [← Hierarchy.knownSuperGraph_edge]
  exact Graph.walk_found_iff_firstAlong hierarchy.isLinear_knownSuperGraph owner newName

/-- On every hierarchy, cyclic or not, resolution of a field ends after the owner and the known
    classes at most. It gives a name exactly if this is the name of the field in the first class
    that has one on the way from the owner up the known superclasses, and so it gives the same
    in hierarchies that know the same classes with the same superclasses. -/
theorem fieldResolution_first (hierarchy : Hierarchy) (renames : Renames) (owner field : String) :
    (Program.resolveField renames owner field).EndsWithin hierarchy.shape?
      (hierarchy.known.length + 1) (renames.resolveField hierarchy owner field) ∧
    (∀ newName, renames.resolveField hierarchy owner field = some newName ↔
      ∃ steps way, FirstAlong hierarchy.KnownSuper
        (fun current => renames.fieldName? current field) owner newName steps way) ∧
    ∀ other, hierarchy.SameSupers other →
      renames.resolveField other owner field = renames.resolveField hierarchy owner field := by
  refine ⟨?_, ?_, ?_⟩
  · exact Program.resolveField_endsWithin hierarchy renames owner field
  · exact renames.resolveField_eq_some_iff hierarchy owner field
  · intro other hsame
    apply Option.ext
    intro newName
    rw [Renames.resolveField_eq_some_iff, Renames.resolveField_eq_some_iff, hsame.knownSuper]

end Nomenclator
