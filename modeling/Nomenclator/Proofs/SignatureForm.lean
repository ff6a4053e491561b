import Mathlib.Tactic
import Nomenclator.Signature.Parser

/-!
# Well-formed signatures

Which signatures have a text that stands for them. Names must not hold the characters
that end them, arrays have a bounded number of dimensions in a row, and types nest up to
a bounded depth: the arguments of a class type are one level below it, and the
components of an array are one level below all its dimensions together.

A type that stands where every type of objects may stand takes up a level itself. A class
type that is read as an interface, or as the superclass behind type parameters, does not,
so only its arguments count there.

Two conditions keep different signatures from having the same text. A class without type
parameters and without interfaces would be read as a field, and the name of a type
parameter behind one without bounds would be read as its bound.

Results:
* `ClassType.depth_le_succ_iff`, `ClassType.isValid_iff`: what holds of a class type in
  terms of its segments and their arguments.
* `ReferenceType.array_fits_iff`: what an array may be, in terms of the number of its
  dimensions and the type inside all of them.
-/

namespace Nomenclator

open SignatureScanner (maxNesting maxDimensions nestedArrays)

/-! ## Names, dimensions and depth -/

/-- The name is not empty and holds none of the characters that end it. -/
structure IsName (stops : List Char) (name : String) : Prop where
  ne_empty : name ≠ ""
  no_stop : ∀ c ∈ name.toList, c ∉ stops

instance (stops : List Char) (name : String) : Decidable (IsName stops name) :=
  decidable_of_iff (name ≠ "" ∧ name.toList.all (· ∉ stops) = true)
    ⟨fun h => ⟨h.1, by simpa using h.2⟩, fun h => ⟨h.ne_empty, by simpa using h.no_stop⟩⟩

mutual

/-- How many arrays stand in front of a type. -/
def GenericType.dimensions : GenericType → Nat
  | .base _ => 0
  | .reference type => type.dimensions

/-- How many arrays stand in front of a type of objects. -/
def ReferenceType.dimensions : ReferenceType → Nat
  | .classType _ => 0
  | .typeVariable _ => 0
  | .array component => component.dimensions + 1

end

mutual

/-- How deep a type of objects nests. -/
def ReferenceType.depth : ReferenceType → Nat
  | .classType type => type.depth
  | .typeVariable _ => 1
  | .array component => component.depthInArray

/-- How deep an array of a type nests. -/
def GenericType.depthInArray : GenericType → Nat
  | .base _ => 1
  | .reference type => type.depthInArray

/-- How deep an array of a type of objects nests: a level more than the type, unless the
    type is itself an array, which then belongs to the same run of dimensions. -/
def ReferenceType.depthInArray : ReferenceType → Nat
  | .classType type => type.depth + 1
  | .typeVariable _ => 1 + 1
  | .array component => component.depthInArray

/-- How deep a class type nests: a level more than its deepest argument. -/
def ClassType.depth : ClassType → Nat
  | .mk outer inner => max outer.argumentDepth (ClassSegment.innerDepth inner) + 1

/-- How deep the deepest argument of inner segments nests. -/
def ClassSegment.innerDepth : List ClassSegment → Nat
  | [] => 0
  | segment :: inner => max segment.argumentDepth (ClassSegment.innerDepth inner)

/-- How deep the deepest argument of a segment nests. -/
def ClassSegment.argumentDepth : ClassSegment → Nat
  | .mk _ arguments => TypeArgument.listDepth arguments

/-- How deep the deepest of some type arguments nests. -/
def TypeArgument.listDepth : List TypeArgument → Nat
  | [] => 0
  | argument :: arguments => max argument.depth (TypeArgument.listDepth arguments)

/-- How deep a type argument nests. -/
def TypeArgument.depth : TypeArgument → Nat
  | .any => 0
  | .bounded _ bound => bound.depth

end

/-- The outermost class and the inner ones. -/
def ClassType.segments (type : ClassType) : List ClassSegment := type.outer :: type.inner

/-- The type arguments of all segments. -/
def ClassType.arguments (type : ClassType) : List TypeArgument :=
  type.segments.flatMap ClassSegment.arguments

/-! ## Valid types -/

mutual

/-- Names and dimensions are in order throughout a type. -/
def GenericType.IsValid : GenericType → Prop
  | .base _ => True
  | .reference type => type.IsValid

/-- Names and dimensions are in order throughout a type of objects. -/
def ReferenceType.IsValid : ReferenceType → Prop
  | .classType type => type.IsValid
  | .typeVariable name => IsName [';'] name
  | .array component => component.dimensions + 1 ≤ maxDimensions ∧ component.IsValid

/-- Names and dimensions are in order throughout a class type. -/
def ClassType.IsValid : ClassType → Prop
  | .mk outer inner => outer.IsValid ∧ ClassSegment.InnerValid inner

/-- Names and dimensions are in order throughout inner segments. -/
def ClassSegment.InnerValid : List ClassSegment → Prop
  | [] => True
  | segment :: inner => segment.IsValid ∧ ClassSegment.InnerValid inner

/-- Names and dimensions are in order throughout a segment. -/
def ClassSegment.IsValid : ClassSegment → Prop
  | .mk name arguments => IsName ['<', '.', ';'] name ∧ TypeArgument.ListValid arguments

/-- Names and dimensions are in order throughout type arguments. -/
def TypeArgument.ListValid : List TypeArgument → Prop
  | [] => True
  | argument :: arguments => argument.IsValid ∧ TypeArgument.ListValid arguments

/-- Names and dimensions are in order throughout a type argument. -/
def TypeArgument.IsValid : TypeArgument → Prop
  | .any => True
  | .bounded _ bound => bound.IsValid

end

/-- The type of objects is valid and nests at most `levels` deep. -/
structure ReferenceType.Fits (levels : Nat) (type : ReferenceType) : Prop where
  isValid : type.IsValid
  depth_le : type.depth ≤ levels

/-- The class type is valid and its arguments nest at most `levels` deep. -/
structure ClassType.ArgumentsFit (levels : Nat) (type : ClassType) : Prop where
  isValid : type.IsValid
  depth_le : ∀ argument ∈ type.arguments, argument.depth ≤ levels

/-- The type is a base type or satisfies the condition. -/
def GenericType.IfReference (P : ReferenceType → Prop) : GenericType → Prop
  | .base _ => True
  | .reference type => P type

/-- The argument is the wildcard without a bound or its bound satisfies the
    condition. -/
def TypeArgument.IfBounded (P : ReferenceType → Prop) : TypeArgument → Prop
  | .any => True
  | .bounded _ bound => P bound

/-! ## Well-formed signatures -/

/-- The type parameter has a bound. -/
def TypeParameter.IsBounded (parameter : TypeParameter) : Prop :=
  parameter.classBound.isSome ∨ parameter.interfaceBounds ≠ []

/-- The name and the bounds of a type parameter are in order. -/
structure TypeParameter.IsValid (parameter : TypeParameter) : Prop where
  name : IsName [':', '>'] parameter.name
  classBound : ∀ bound ∈ parameter.classBound, bound.Fits maxNesting
  interfaceBounds : ∀ bound ∈ parameter.interfaceBounds, bound.Fits maxNesting

/-- All type parameters are in order, and only the last may be without bounds. -/
structure TypeParameter.ListValid (parameters : List TypeParameter) : Prop where
  isValid : ∀ parameter ∈ parameters, parameter.IsValid
  isBounded : ∀ parameter ∈ parameters.dropLast, parameter.IsBounded

/-- The signature of a class is well formed. -/
structure ClassSignature.WellFormed (signature : ClassSignature) : Prop where
  parameters : TypeParameter.ListValid signature.parameters
  superclass : signature.superclass.ArgumentsFit maxNesting
  interfaces : ∀ type ∈ signature.interfaces, type.ArgumentsFit maxNesting
  /-- Without type parameters the superclass is read as a field's type would be, and is one
      unless interfaces follow. -/
  plain : signature.parameters = [] →
    signature.superclass.depth ≤ maxNesting ∧ signature.interfaces ≠ []

/-- The type can be thrown. -/
def ReferenceType.IsThrowable : ReferenceType → Prop
  | .array _ => False
  | _ => True

/-- The signature of a method is well formed. -/
structure MethodSignature.WellFormed (signature : MethodSignature) : Prop where
  typeParameters : TypeParameter.ListValid signature.typeParameters
  parameters : ∀ type ∈ signature.parameters, type.IfReference (·.Fits maxNesting)
  result : ∀ type ∈ signature.result, type.IfReference (·.Fits maxNesting)
  thrown : ∀ type ∈ signature.thrown, type.Fits maxNesting ∧ type.IsThrowable

/-- The signature is well formed. -/
def Signature.WellFormed : Signature → Prop
  | ofClass signature => signature.WellFormed
  | ofMethod signature => signature.WellFormed
  | ofField type => type.Fits maxNesting

/-! ## Class types by their segments -/

theorem TypeArgument.listDepth_le_iff (levels : Nat) (arguments : List TypeArgument) :
    listDepth arguments ≤ levels ↔ ∀ argument ∈ arguments, argument.depth ≤ levels := by
  induction arguments with
  | nil => simp [listDepth]
  | cons argument arguments ih => simp [listDepth, ih]

theorem ClassSegment.argumentDepth_le_iff (levels : Nat) (segment : ClassSegment) :
    segment.argumentDepth ≤ levels ↔ ∀ argument ∈ segment.arguments, argument.depth ≤ levels := by
  cases segment
  rw [argumentDepth]
  exact TypeArgument.listDepth_le_iff _ _

theorem ClassSegment.innerDepth_le_iff (levels : Nat) (inner : List ClassSegment) :
    innerDepth inner ≤ levels ↔ ∀ segment ∈ inner, segment.argumentDepth ≤ levels := by
  induction inner with
  | nil => simp [innerDepth]
  | cons segment inner ih => simp [innerDepth, ih]

/-- A class type nests one level deeper than its arguments. -/
theorem ClassType.depth_le_succ_iff (levels : Nat) (type : ClassType) :
    type.depth ≤ levels + 1 ↔ ∀ argument ∈ type.arguments, argument.depth ≤ levels := by
  obtain ⟨outer, inner⟩ := type
  rw [depth, Nat.add_le_add_iff_right, max_le_iff, ClassSegment.innerDepth_le_iff,
    arguments, List.forall_mem_flatMap, segments, List.forall_mem_cons]
  simp only [ClassSegment.argumentDepth_le_iff, ClassType.outer, ClassType.inner]

theorem ClassType.depth_pos (type : ClassType) : 0 < type.depth := by
  obtain ⟨outer, inner⟩ := type
  rw [depth]
  exact Nat.succ_pos _

theorem TypeArgument.listValid_iff (arguments : List TypeArgument) :
    ListValid arguments ↔ ∀ argument ∈ arguments, argument.IsValid := by
  induction arguments with
  | nil => simp [ListValid]
  | cons argument arguments ih => simp [ListValid, ih]

theorem ClassSegment.isValid_iff (segment : ClassSegment) :
    segment.IsValid ↔ IsName ['<', '.', ';'] segment.name ∧
      ∀ argument ∈ segment.arguments, argument.IsValid := by
  cases segment
  rw [IsValid, TypeArgument.listValid_iff]
  rfl

theorem ClassSegment.innerValid_iff (inner : List ClassSegment) :
    InnerValid inner ↔ ∀ segment ∈ inner, segment.IsValid := by
  induction inner with
  | nil => simp [InnerValid]
  | cons segment inner ih => simp [InnerValid, ih]

/-- A class type is valid if its segments are. -/
theorem ClassType.isValid_iff (type : ClassType) :
    type.IsValid ↔ ∀ segment ∈ type.segments, segment.IsValid := by
  obtain ⟨outer, inner⟩ := type
  rw [IsValid, ClassSegment.innerValid_iff, segments, List.forall_mem_cons]
  rfl

theorem TypeArgument.ifBounded_fits_iff (levels : Nat) (argument : TypeArgument) :
    argument.IfBounded (·.Fits levels) ↔ argument.IsValid ∧ argument.depth ≤ levels := by
  cases argument with
  | any => simp [IfBounded, IsValid, depth]
  | bounded variance bound =>
    rw [IfBounded, IsValid, depth]
    exact ⟨fun h => ⟨h.isValid, h.depth_le⟩, fun h => ⟨h.1, h.2⟩⟩

/-- The name of the segment is in order, and so are the bounds of its arguments. -/
def ClassSegment.Accepts (P : ReferenceType → Prop) (segment : ClassSegment) : Prop :=
  IsName ['<', '.', ';'] segment.name ∧ ∀ argument ∈ segment.arguments, argument.IfBounded P

theorem ClassType.argumentsFit_iff (levels : Nat) (type : ClassType) :
    type.ArgumentsFit levels ↔ ∀ segment ∈ type.segments, segment.Accepts (·.Fits levels) := by
  have hsegment : ∀ segment : ClassSegment, segment.Accepts (·.Fits levels) ↔
      segment.IsValid ∧ ∀ argument ∈ segment.arguments, argument.depth ≤ levels := by
    intro segment
    simp only [ClassSegment.Accepts, TypeArgument.ifBounded_fits_iff, ClassSegment.isValid_iff]
    exact ⟨fun h => ⟨⟨h.1, fun a ha => (h.2 a ha).1⟩, fun a ha => (h.2 a ha).2⟩,
      fun h => ⟨h.1.1, fun a ha => ⟨h.1.2 a ha, h.2 a ha⟩⟩⟩
  simp only [hsegment]
  constructor
  · intro h segment hsegment
    exact ⟨(ClassType.isValid_iff type).mp h.isValid segment hsegment,
      List.forall_mem_flatMap.mp h.depth_le segment hsegment⟩
  · intro h
    exact ⟨(ClassType.isValid_iff type).mpr fun segment hs => (h segment hs).1,
      List.forall_mem_flatMap.mpr fun segment hs => (h segment hs).2⟩

theorem ReferenceType.classType_fits_iff (levels : Nat) (type : ClassType) :
    (ReferenceType.classType type).Fits (levels + 1) ↔ type.ArgumentsFit levels := by
  constructor
  · rintro ⟨hvalid, hdepth⟩
    rw [IsValid] at hvalid
    rw [depth] at hdepth
    exact ⟨hvalid, (ClassType.depth_le_succ_iff levels type).mp hdepth⟩
  · rintro ⟨hvalid, hdepth⟩
    refine ⟨by rwa [IsValid], ?_⟩
    rw [depth]
    exact (ClassType.depth_le_succ_iff levels type).mpr hdepth

/-- A class type that takes up a level itself has one level less for its arguments. -/
theorem ReferenceType.classType_fits_iff_depth_le (levels : Nat) (type : ClassType) :
    (ReferenceType.classType type).Fits levels ↔
      type.ArgumentsFit levels ∧ type.depth ≤ levels := by
  constructor
  · rintro ⟨hvalid, hdepth⟩
    rw [IsValid] at hvalid
    rw [depth] at hdepth
    exact ⟨⟨hvalid, (ClassType.depth_le_succ_iff _ _).mp (Nat.le_succ_of_le hdepth)⟩, hdepth⟩
  · rintro ⟨hfit, hdepth⟩
    exact ⟨by rw [IsValid]; exact hfit.isValid, by rwa [depth]⟩

theorem ReferenceType.typeVariable_fits_iff (levels : Nat) (name : String) :
    (ReferenceType.typeVariable name).Fits (levels + 1) ↔ IsName [';'] name := by
  constructor
  · intro h
    have hvalid := h.isValid
    rwa [IsValid] at hvalid
  · intro h
    refine ⟨by rwa [IsValid], ?_⟩
    rw [depth]
    omega

/-! ## Arrays by their dimensions -/

@[simp] theorem GenericType.dimensions_nestedArrays (n : Nat) (type : GenericType) :
    (nestedArrays n type).dimensions = n + type.dimensions := by
  induction n with
  | zero => simp [nestedArrays]
  | succ n ih =>
    rw [nestedArrays, GenericType.dimensions, ReferenceType.dimensions, ih]
    omega

theorem GenericType.depthInArray_nestedArrays (n : Nat) (type : GenericType) :
    (nestedArrays n type).depthInArray = type.depthInArray := by
  induction n with
  | zero => rfl
  | succ n ih =>
    rw [nestedArrays, GenericType.depthInArray, ReferenceType.depthInArray, ih]

theorem GenericType.isValid_nestedArrays {type : GenericType} (htype : type.dimensions = 0)
    (n : Nat) : (nestedArrays n type).IsValid ↔ n ≤ maxDimensions ∧ type.IsValid := by
  induction n with
  | zero => simp [nestedArrays]
  | succ n ih =>
    rw [nestedArrays, GenericType.IsValid, ReferenceType.IsValid, ih, dimensions_nestedArrays,
      htype]
    constructor
    · rintro ⟨hn, -, hvalid⟩
      exact ⟨hn, hvalid⟩
    · rintro ⟨hn, hvalid⟩
      exact ⟨hn, by omega, hvalid⟩

/-- Every type is some number of arrays around a type that is no array. -/
theorem GenericType.exists_nestedArrays (type : GenericType) :
    ∃ n innermost, innermost.dimensions = 0 ∧ type = nestedArrays n innermost := by
  induction hn : type.dimensions generalizing type with
  | zero => exact ⟨0, type, hn, rfl⟩
  | succ n ih =>
    match type with
    | .reference (.array component) =>
      rw [dimensions, ReferenceType.dimensions] at hn
      obtain ⟨m, innermost, hinnermost, rfl⟩ := ih component (by omega)
      exact ⟨m + 1, innermost, hinnermost, rfl⟩
    | .base _ => simp [dimensions] at hn
    | .reference (.classType _) => simp [dimensions, ReferenceType.dimensions] at hn
    | .reference (.typeVariable _) => simp [dimensions, ReferenceType.dimensions] at hn

/-- The type inside all dimensions of an array stands one level below it. -/
theorem GenericType.ifReference_fits_iff {innermost : GenericType}
    (hinnermost : innermost.dimensions = 0) (levels : Nat) :
    innermost.IfReference (·.Fits levels) ↔
      innermost.IsValid ∧ innermost.depthInArray ≤ levels + 1 := by
  have hfits : ∀ type : ReferenceType, type.Fits levels ↔ type.IsValid ∧ type.depth ≤ levels :=
    fun type => ⟨fun h => ⟨h.isValid, h.depth_le⟩, fun h => ⟨h.1, h.2⟩⟩
  match innermost with
  | .base _ => simp [IfReference, IsValid, depthInArray]
  | .reference (.classType type) =>
    rw [IfReference, hfits, IsValid, depthInArray, ReferenceType.depth,
      ReferenceType.depthInArray, Nat.add_le_add_iff_right]
  | .reference (.typeVariable name) =>
    rw [IfReference, hfits, IsValid, depthInArray, ReferenceType.depth,
      ReferenceType.depthInArray, Nat.add_le_add_iff_right]
  | .reference (.array component) => simp [dimensions, ReferenceType.dimensions] at hinnermost

/-- An array fits if its dimensions are not too many and the type inside all of them is a
    base type or fits one level below. -/
theorem ReferenceType.array_fits_iff {innermost : GenericType}
    (hinnermost : innermost.dimensions = 0) (levels n : Nat) :
    (ReferenceType.array (nestedArrays n innermost)).Fits (levels + 1) ↔
      n + 1 ≤ maxDimensions ∧ innermost.IfReference (·.Fits levels) := by
  rw [GenericType.ifReference_fits_iff hinnermost]
  have hvalid : (ReferenceType.array (nestedArrays n innermost)).IsValid ↔
      n + 1 ≤ maxDimensions ∧ innermost.IsValid := by
    have hnested := GenericType.isValid_nestedArrays hinnermost (n + 1)
    rwa [nestedArrays, GenericType.IsValid] at hnested
  have hdepth : (ReferenceType.array (nestedArrays n innermost)).depth =
      innermost.depthInArray := by
    rw [depth, GenericType.depthInArray_nestedArrays]
  constructor
  · intro h
    obtain ⟨hn, hinner⟩ := hvalid.mp h.isValid
    exact ⟨hn, hinner, hdepth ▸ h.depth_le⟩
  · rintro ⟨hn, hinner, hle⟩
    exact ⟨hvalid.mpr ⟨hn, hinner⟩, hdepth ▸ hle⟩

theorem GenericType.depthInArray_pos (type : GenericType) : 0 < type.depthInArray := by
  obtain ⟨n, innermost, hinnermost, rfl⟩ := type.exists_nestedArrays
  rw [depthInArray_nestedArrays]
  match innermost with
  | .base _ => simp [depthInArray]
  | .reference (.classType type) => simp [depthInArray, ReferenceType.depthInArray]
  | .reference (.typeVariable name) => simp [depthInArray, ReferenceType.depthInArray]
  | .reference (.array component) => simp [dimensions, ReferenceType.dimensions] at hinnermost

/-- Every type of objects takes up a level. -/
theorem ReferenceType.depth_pos (type : ReferenceType) : 0 < type.depth := by
  cases type with
  | classType type => rw [depth]; exact type.depth_pos
  | typeVariable name => rw [depth]; exact Nat.one_pos
  | array component => rw [depth]; exact component.depthInArray_pos

end Nomenclator
