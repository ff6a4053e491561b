import Nomenclator.Proofs.Scanning
import Nomenclator.Proofs.SignatureForm

/-!
# Types and their texts

The parts of a type are read by scanners that are handed the one for the types inside it.
So each of them is shown to read its printed form exactly if that one does, for any
condition on the types inside, and the recursion over the levels of nesting comes last.

Results:
* `identifier_reads`, `enclosed_reads`: names, and items in angle brackets.
* `classType_reads`, `genericType_reads`, `arrayType_eq_some_iff`: types, given what is
  read inside them.
* `referenceType_reads`: types of objects that nest up to a given depth.
-/

namespace Nomenclator

open Scanner (Reads AcceptsRow startsWith expect)

/-! ## How texts start -/

/-- The character with which the text of a type of objects starts. -/
def ReferenceType.initial : ReferenceType → Char
  | .classType _ => 'L'
  | .typeVariable _ => 'T'
  | .array _ => '['

theorem ClassType.chars_eq_cons (type : ClassType) : ∃ text, type.chars = 'L' :: text := by
  obtain ⟨outer, inner⟩ := type
  simp [chars]

theorem ReferenceType.chars_eq_cons (type : ReferenceType) :
    ∃ text, type.chars = type.initial :: text := by
  cases type with
  | classType type => rw [chars]; exact type.chars_eq_cons
  | typeVariable name => simp [chars, initial]
  | array component => simp [chars, initial]

theorem ReferenceType.startsWith_chars (type : ReferenceType) (rest : List Char) (c : Char) :
    startsWith c (type.chars ++ rest) = decide (type.initial = c) := by
  obtain ⟨text, htext⟩ := type.chars_eq_cons
  rw [htext]
  rfl

theorem ReferenceType.startsWith_chars_of_not_mem (type : ReferenceType) (rest : List Char)
    {c : Char} (hc : c ∉ ['L', 'T', '[']) : startsWith c (type.chars ++ rest) = false := by
  rw [startsWith_chars, decide_eq_false_iff_not]
  rintro rfl
  cases type <;> simp [initial] at hc

theorem ReferenceType.chars_ne_nil (type : ReferenceType) : type.chars ≠ [] := by
  obtain ⟨text, htext⟩ := type.chars_eq_cons
  rw [htext]
  exact List.cons_ne_nil _ _

theorem GenericType.chars_ne_nil (type : GenericType) : type.chars ≠ [] := by
  cases type with
  | base type => simp [chars]
  | reference type => rw [chars]; exact type.chars_ne_nil

theorem GenericType.startsWith_chars_of_not_mem (type : GenericType) (rest : List Char) {c : Char}
    (hc : c ∉ ['L', 'T', '[', 'B', 'C', 'D', 'F', 'I', 'J', 'S', 'Z']) :
    startsWith c (type.chars ++ rest) = false := by
  cases type with
  | base type =>
    simp only [List.mem_cons, List.not_mem_nil, not_or] at hc
    cases type <;> simp [chars, BaseType.letter] <;> tauto
  | reference type =>
    rw [chars]
    apply type.startsWith_chars_of_not_mem
    simp_all

theorem BaseType.ofLetter?_eq_some_iff {c : Char} {type : BaseType} :
    ofLetter? c = some type ↔ c = type.letter := by
  constructor
  · intro h
    unfold ofLetter? at h
    split at h <;> cases h <;> rfl
  · rintro rfl
    cases type <;> rfl

theorem ReferenceType.ofLetter?_initial (type : ReferenceType) :
    BaseType.ofLetter? type.initial = none := by
  cases type <;> rfl

theorem TypeArgument.chars_ne_nil (argument : TypeArgument) : argument.chars ≠ [] := by
  cases argument with
  | any => simp [chars]
  | bounded variance bound => simp [chars, bound.chars_ne_nil]

theorem TypeArgument.startsWith_chars_of_not_mem (argument : TypeArgument) (rest : List Char)
    {c : Char} (hc : c ∉ ['L', 'T', '[', '*', '+', '-']) :
    startsWith c (argument.chars ++ rest) = false := by
  cases argument with
  | any =>
    simp only [List.mem_cons, List.not_mem_nil, not_or] at hc
    simp [chars, Ne.symm hc.2.2.2.1]
  | bounded variance bound =>
    have hbound := bound.startsWith_chars_of_not_mem rest (c := c) (by simp_all)
    simp only [List.mem_cons, List.not_mem_nil, not_or] at hc
    cases variance with
    | invariant => simpa [chars, Variance.mark] using hbound
    | covariant => simp [chars, Variance.mark, Ne.symm hc.2.2.2.2.1]
    | contravariant => simp [chars, Variance.mark, Ne.symm hc.2.2.2.2.2.1]

/-- The text of a type starts with a bracket for every dimension. -/
theorem GenericType.chars_nestedArrays (n : Nat) (type : GenericType) :
    (SignatureScanner.nestedArrays n type).chars = List.replicate n '[' ++ type.chars := by
  induction n with
  | zero => rfl
  | succ n ih =>
    rw [SignatureScanner.nestedArrays, chars, ReferenceType.chars, ih]
    rfl

theorem ReferenceType.chars_array_nestedArrays (n : Nat) (type : GenericType) :
    (ReferenceType.array (SignatureScanner.nestedArrays n type)).chars =
      List.replicate (n + 1) '[' ++ type.chars := by
  rw [← GenericType.chars_nestedArrays, SignatureScanner.nestedArrays, GenericType.chars]

theorem GenericType.startsWith_bracket (type : GenericType) (rest : List Char) :
    startsWith '[' (type.chars ++ rest) = false ↔ type.dimensions = 0 := by
  match type with
  | .base type => cases type <;> simp [chars, BaseType.letter, dimensions]
  | .reference (.classType type) =>
    rw [chars, ReferenceType.startsWith_chars]
    simp [ReferenceType.initial, dimensions, ReferenceType.dimensions]
  | .reference (.typeVariable name) =>
    rw [chars, ReferenceType.startsWith_chars]
    simp [ReferenceType.initial, dimensions, ReferenceType.dimensions]
  | .reference (.array component) =>
    rw [chars, ReferenceType.startsWith_chars]
    simp [ReferenceType.initial, dimensions, ReferenceType.dimensions]

/-! ## Texts of lists -/

theorem TypeArgument.listChars_eq (arguments : List TypeArgument) :
    listChars arguments = arguments.flatMap TypeArgument.chars := by
  induction arguments with
  | nil => rfl
  | cons argument arguments ih => rw [listChars, List.flatMap_cons, ih]

theorem ClassSegment.innerChars_eq (inner : List ClassSegment) :
    innerChars inner = inner.flatMap fun segment => '.' :: segment.chars := by
  induction inner with
  | nil => rfl
  | cons segment inner ih => rw [innerChars, List.flatMap_cons, ih]

/-- Items in angle brackets, and nothing for no items. -/
def enclosedChars {α : Type} (chars : α → List Char) (items : List α) : List Char :=
  if items.isEmpty then [] else '<' :: items.flatMap chars ++ ['>']

theorem ClassSegment.chars_eq (segment : ClassSegment) :
    segment.chars = segment.name.toList ++ enclosedChars TypeArgument.chars segment.arguments := by
  obtain ⟨name, arguments⟩ := segment
  cases arguments with
  | nil => simp [chars, enclosedChars, ClassSegment.name, ClassSegment.arguments]
  | cons first arguments =>
    simp [chars, enclosedChars, ClassSegment.name, ClassSegment.arguments,
      TypeArgument.listChars_eq]

namespace SignatureScanner

/-! ## Names and brackets -/

theorem identifier_reads (stops : List Char) :
    (identifier stops).Reads String.toList
      fun name rest => IsName stops name ∧ ∀ c ∈ rest.head?, c ∈ stops := by
  intro text name rest
  simp only [identifier, Option.bind_eq_bind, Option.bind_eq_some_iff, Prod.exists,
    Scanner.run1_eq_some_iff, Option.pure_def, Option.some.injEq, Prod.mk.injEq]
  constructor
  · rintro ⟨taken, rest, ⟨rfl, hne, htaken, hrest⟩, rfl, rfl⟩
    refine ⟨by rw [String.toList_ofList], ⟨?_, ?_⟩, ?_⟩
    · rwa [Ne, String.ofList_eq_empty_iff]
    · intro c hc
      rw [String.toList_ofList] at hc
      simpa using htaken c hc
    · intro c hc
      simpa using hrest c hc
  · rintro ⟨rfl, hname, hrest⟩
    refine ⟨name.toList, rest, ⟨rfl, ?_, ?_, ?_⟩, String.ofList_toList, rfl⟩
    · rw [Ne, String.toList_eq_nil_iff]
      exact hname.ne_empty
    · intro c hc
      simpa using hname.no_stop c hc
    · intro c hc
      simpa using hrest c hc

theorem enclosed_of_not_startsWith {α : Type} (item : Scanner α) {text : List Char}
    (h : startsWith '<' text = false) : enclosed item text = some ([], text) := by
  unfold enclosed
  split
  · simp at h
  · rfl

/-- Items that are read before a closing bracket are read in brackets. Nothing is read as
    no items where no bracket opens. -/
theorem enclosed_reads {α : Type} {item : Scanner α} {chars : α → List Char}
    {accepts : α → List Char → Prop} (hitem : item.Reads chars accepts)
    (hstart : ∀ a rest, accepts a rest → startsWith '>' (chars a ++ rest) = false)
    (hne : ∀ a rest, accepts a rest → chars a ≠ []) :
    (enclosed item).Reads (enclosedChars chars) fun items rest =>
      (items = [] → startsWith '<' rest = false) ∧
        AcceptsRow chars accepts items ('>' :: rest) := by
  have hrow := hitem.repeatWhile (fun ahead => !startsWith '>' ahead)
    (fun a rest ha => by simp [hstart a rest ha]) hne
  have hbracket : ∀ text items rest, enclosed item ('<' :: text) = some (items, rest) ↔
      text = items.flatMap chars ++ '>' :: rest ∧ items ≠ [] ∧
        AcceptsRow chars accepts items ('>' :: rest) := by
    intro text items rest
    simp only [enclosed, Option.bind_eq_bind, Option.bind_eq_some_iff, Prod.exists, hrow _ _ _,
      Scanner.expect_eq_some_iff]
    constructor
    · rintro ⟨read, ahead, ⟨rfl, haccepts, -⟩, behind, rfl, h⟩
      split_ifs at h with hempty
      obtain ⟨rfl, rfl⟩ := Prod.mk.injEq .. ▸ Option.some.inj h
      exact ⟨rfl, fun hnil => hempty (by rw [hnil]; rfl), haccepts⟩
    · rintro ⟨rfl, hitems, haccepts⟩
      exact ⟨items, '>' :: rest, ⟨rfl, haccepts, by simp⟩, rest, rfl, by simp [hitems]⟩
  intro text items rest
  constructor
  · intro h
    cases htext : startsWith '<' text with
    | true =>
      obtain ⟨text, rfl⟩ := Scanner.startsWith_iff.mp htext
      obtain ⟨rfl, hitems, haccepts⟩ := (hbracket _ _ _).mp h
      exact ⟨by simp [enclosedChars, hitems], fun hnil => absurd hnil hitems, haccepts⟩
    | false =>
      rw [enclosed_of_not_startsWith item htext] at h
      obtain ⟨rfl, rfl⟩ := Prod.mk.injEq .. ▸ Option.some.inj h
      exact ⟨rfl, fun _ => htext, trivial⟩
  · rintro ⟨rfl, hempty, haccepts⟩
    cases items with
    | nil => exact enclosed_of_not_startsWith item (hempty rfl)
    | cons first items =>
      rw [enclosedChars, if_neg (by simp), List.cons_append, List.cons_append, hbracket]
      exact ⟨by simp, List.cons_ne_nil _ _, haccepts⟩

/-! ## Types -/

section Types

variable {bound : Scanner ReferenceType} {P : ReferenceType → Prop}
  (hbound : bound.Reads ReferenceType.chars fun type _ => P type)

include hbound

theorem typeArgument_reads :
    (typeArgument bound).Reads TypeArgument.chars fun argument _ => argument.IfBounded P := by
  intro text argument rest
  constructor
  · intro h
    unfold typeArgument at h
    split at h
    · obtain ⟨rfl, rfl⟩ := Prod.mk.injEq .. ▸ Option.some.inj h
      exact ⟨rfl, trivial⟩
    all_goals
      simp only [Option.bind_eq_bind, Option.bind_eq_some_iff, Prod.exists, hbound _ _ _,
        Option.pure_def, Option.some.injEq, Prod.mk.injEq] at h
      obtain ⟨type, _, ⟨rfl, htype⟩, rfl, rfl⟩ := h
      exact ⟨rfl, htype⟩
  · rintro ⟨rfl, haccepts⟩
    cases argument with
    | any => rfl
    | bounded variance type =>
      have hread : bound (type.chars ++ rest) = some (type, rest) := hbound.read rest haccepts
      cases variance with
      | covariant => simp [TypeArgument.chars, Variance.mark, typeArgument, hread]
      | contravariant => simp [TypeArgument.chars, Variance.mark, typeArgument, hread]
      | invariant =>
        rw [TypeArgument.chars, Variance.mark, List.nil_append]
        unfold typeArgument
        -- No mark can be the start of a type.
        have hmark : ∀ c ∈ ['*', '+', '-'], ∀ text, type.chars ++ rest ≠ c :: text := by
          intro c hc text heq
          have hstart := type.startsWith_chars_of_not_mem rest (c := c) (by
            simp only [List.mem_cons, List.not_mem_nil, or_false] at hc
            rcases hc with rfl | rfl | rfl <;> decide)
          rw [heq] at hstart
          simp at hstart
        split
        · next heq => exact absurd heq (hmark '*' (by simp) _)
        · next heq => exact absurd heq (hmark '+' (by simp) _)
        · next heq => exact absurd heq (hmark '-' (by simp) _)
        · rw [hread]
          rfl

theorem typeArguments_reads :
    (typeArguments bound).Reads (enclosedChars TypeArgument.chars) fun arguments rest =>
      (arguments = [] → startsWith '<' rest = false) ∧
        ∀ argument ∈ arguments, argument.IfBounded P := by
  have henclosed := enclosed_reads (typeArgument_reads hbound)
    (fun argument rest _ => argument.startsWith_chars_of_not_mem rest (by decide))
    (fun argument _ _ => argument.chars_ne_nil)
  refine henclosed.congr fun arguments rest => ?_
  rw [Scanner.acceptsRow_iff fun _ _ => Iff.rfl]

/-- A segment without arguments ends where its name does. -/
theorem classSegment_reads :
    (classSegment bound).Reads ClassSegment.chars fun segment rest =>
      segment.Accepts P ∧ (segment.arguments = [] → ∀ c ∈ rest.head?, c ∈ ['.', ';']) := by
  intro text segment rest
  simp only [classSegment, Option.bind_eq_bind, Option.bind_eq_some_iff, Prod.exists,
    identifier_reads _ _ _ _, typeArguments_reads hbound _ _ _, Option.pure_def, Option.some.injEq,
    Prod.mk.injEq]
  constructor
  · rintro ⟨name, _, ⟨rfl, hname, hstop⟩, arguments, _, ⟨rfl, hnone, harguments⟩, rfl, rfl⟩
    refine ⟨by rw [ClassSegment.chars_eq, List.append_assoc]; rfl, ⟨hname, harguments⟩, ?_⟩
    intro hempty c hc
    obtain rfl : arguments = [] := hempty
    rcases List.mem_cons.mp (hstop c hc) with rfl | hc'
    · obtain ⟨behind, rfl⟩ := List.head?_eq_some_iff.mp hc
      simp at hnone
    · exact hc'
  · rintro ⟨rfl, ⟨hname, harguments⟩, hends⟩
    obtain ⟨name, arguments⟩ := segment
    refine ⟨name, enclosedChars TypeArgument.chars arguments ++ rest,
      ⟨by rw [ClassSegment.chars_eq, List.append_assoc]; rfl, hname, ?_⟩, arguments, rest,
      ⟨rfl, ?_, harguments⟩, rfl, rfl⟩
    · cases arguments with
      | nil => exact fun c hc => List.mem_cons_of_mem _ (hends rfl c hc)
      | cons first arguments => simp [enclosedChars]
    · rintro rfl
      cases rest with
      | nil => rfl
      | cons c rest =>
        have hc := hends rfl c rfl
        simp only [List.mem_cons, List.not_mem_nil, or_false] at hc
        rcases hc with rfl | rfl <;> rfl

theorem innerSegment_reads :
    (innerSegment bound).Reads (fun segment => '.' :: segment.chars) fun segment rest =>
      segment.Accepts P ∧ (segment.arguments = [] → ∀ c ∈ rest.head?, c ∈ ['.', ';']) :=
  (classSegment_reads hbound).behind '.'

theorem classType_reads :
    (classType bound).Reads ClassType.chars fun type _ =>
      ∀ segment ∈ type.segments, segment.Accepts P := by
  have hinner := (innerSegment_reads hbound).repeatWhile (startsWith '.')
    (fun segment rest _ => rfl) (fun segment _ _ => List.cons_ne_nil _ _)
  -- What follows a segment is a dot or the semicolon at the end.
  have hends : ∀ (inner : List ClassSegment) (rest : List Char),
      ∀ c ∈ ((inner.flatMap fun segment => '.' :: segment.chars) ++ ';' :: rest).head?,
        c ∈ ['.', ';'] := by
    intro inner rest c hc
    cases inner with
    | nil =>
      obtain rfl : ';' = c := by simpa using hc
      decide
    | cons segment inner =>
      obtain rfl : '.' = c := by simpa using hc
      decide
  have hrow : ∀ (inner : List ClassSegment) (rest : List Char),
      AcceptsRow (fun segment => '.' :: segment.chars) (fun segment rest => segment.Accepts P ∧
        (segment.arguments = [] → ∀ c ∈ rest.head?, c ∈ ['.', ';'])) inner (';' :: rest) ↔
        ∀ segment ∈ inner, segment.Accepts P := fun inner rest =>
    Scanner.acceptsRow_iff (fun segment behind => and_iff_left fun _ => hends behind rest) inner
  have hchars : ∀ (outer : ClassSegment) (inner : List ClassSegment) (rest : List Char),
      (ClassType.mk outer inner).chars ++ rest =
        'L' :: (outer.chars ++ ((inner.flatMap fun segment => '.' :: segment.chars) ++
          ';' :: rest)) := by
    intro outer inner rest
    simp [ClassType.chars, ClassSegment.innerChars_eq]
  intro text type rest
  simp only [classType, Option.bind_eq_bind, Option.bind_eq_some_iff, Prod.exists,
    Scanner.expect_eq_some_iff, classSegment_reads hbound _ _ _, hinner _ _ _, Option.pure_def,
    Option.some.injEq, Prod.mk.injEq]
  constructor
  · rintro ⟨_, rfl, outer, _, ⟨rfl, houter, -⟩, inner, _, ⟨rfl, haccepts, -⟩, _, rfl, rfl, rfl⟩
    refine ⟨(hchars _ _ _).symm, ?_⟩
    rw [ClassType.segments, List.forall_mem_cons]
    exact ⟨houter, (hrow _ _).mp haccepts⟩
  · obtain ⟨outer, inner⟩ := type
    rintro ⟨rfl, haccepts⟩
    rw [ClassType.segments, List.forall_mem_cons] at haccepts
    refine ⟨_, hchars _ _ _, outer, _, ⟨rfl, haccepts.1, fun _ => hends inner rest⟩, inner, _,
      ⟨rfl, (hrow _ _).mpr haccepts.2, rfl⟩, rest, rfl, rfl, rfl⟩

theorem genericType_reads :
    (genericType bound).Reads GenericType.chars fun type _ => type.IfReference P := by
  intro text type rest
  constructor
  · intro h
    unfold genericType at h
    split at h
    · next base hbase =>
      obtain ⟨c, hc, hletter⟩ := Option.bind_eq_some_iff.mp hbase
      obtain ⟨behind, rfl⟩ := List.head?_eq_some_iff.mp hc
      obtain ⟨rfl, rfl⟩ := Prod.mk.injEq .. ▸ Option.some.inj h
      exact ⟨by rw [BaseType.ofLetter?_eq_some_iff.mp hletter]; rfl, trivial⟩
    · simp only [Option.bind_eq_bind, Option.bind_eq_some_iff, Prod.exists, hbound _ _ _,
        Option.pure_def, Option.some.injEq, Prod.mk.injEq] at h
      obtain ⟨type, _, ⟨rfl, htype⟩, rfl, rfl⟩ := h
      exact ⟨rfl, htype⟩
  · rintro ⟨rfl, haccepts⟩
    unfold genericType
    cases type with
    | base type =>
      have hletter : BaseType.ofLetter? type.letter = some type :=
        BaseType.ofLetter?_eq_some_iff.mpr rfl
      simp [GenericType.chars, hletter]
    | reference type =>
      have hread : bound (type.chars ++ rest) = some (type, rest) := hbound.read rest haccepts
      obtain ⟨behind, hbehind⟩ := type.chars_eq_cons
      rw [GenericType.chars, hread, hbehind, List.cons_append, List.head?_cons, Option.bind_some,
        type.ofLetter?_initial]
      rfl

theorem arrayType_eq_some_iff {text rest : List Char} {type : ReferenceType} :
    arrayType bound ('[' :: text) = some (type, rest) ↔
      '[' :: text = type.chars ++ rest ∧ ∃ n innermost, innermost.dimensions = 0 ∧
        type = .array (nestedArrays n innermost) ∧ n + 1 ≤ maxDimensions ∧
          innermost.IfReference P := by
  constructor
  · intro h
    simp only [arrayType] at h
    split_ifs at h with hdimensions
    simp only [Option.bind_eq_bind, Option.bind_eq_some_iff, Prod.exists,
      genericType_reads hbound _ _ _, Option.pure_def, Option.some.injEq, Prod.mk.injEq] at h
    obtain ⟨innermost, _, ⟨hdrop, haccepts⟩, rfl, rfl⟩ := h
    have hinnermost : innermost.dimensions = 0 := by
      rw [← innermost.startsWith_bracket, ← hdrop, Scanner.startsWith_eq_false_iff]
      exact Scanner.head?_dropWhile _ _
    have hrun : ('[' :: text).takeWhile (· = '[') =
        List.replicate (('[' :: text).takeWhile (· = '[')).length '[' := by
      rw [List.eq_replicate_iff]
      exact ⟨rfl, fun c hc => by simpa using List.all_eq_true.mp List.all_takeWhile c hc⟩
    -- The bracket in front accounts for the array that is made in any case.
    obtain ⟨n, hn⟩ : ∃ n, (('[' :: text).takeWhile (· = '[')).length = n + 1 := by
      simp
    rw [hn] at hrun hdimensions ⊢
    refine ⟨?_, n, innermost, hinnermost, rfl, by omega, haccepts⟩
    rw [Nat.add_sub_cancel, ReferenceType.chars_array_nestedArrays, List.append_assoc, ← hdrop,
      ← hrun, List.takeWhile_append_dropWhile]
  · rintro ⟨htext, n, innermost, hinnermost, rfl, hn, haccepts⟩
    have hsplit : '[' :: text = List.replicate (n + 1) '[' ++ (innermost.chars ++ rest) := by
      rw [htext, ReferenceType.chars_array_nestedArrays, List.append_assoc]
    have hrun : ∀ c ∈ List.replicate (n + 1) '[', decide (c = '[') = true := by
      intro c hc
      simp [List.eq_of_mem_replicate hc]
    have hstop : ∀ c ∈ (innermost.chars ++ rest).head?, decide (c = '[') = false :=
      Scanner.startsWith_eq_false_iff.mp ((innermost.startsWith_bracket rest).mpr hinnermost)
    have hread := (genericType_reads hbound).read rest haccepts
    rw [hsplit]
    unfold arrayType
    rw [Scanner.takeWhile_run hrun hstop, Scanner.dropWhile_run hrun hstop, hread,
      List.length_replicate, if_neg (by omega)]
    rfl

end Types

theorem typeVariable_eq_some_iff {text rest : List Char} {type : ReferenceType} :
    typeVariable text = some (type, rest) ↔
      text = type.chars ++ rest ∧ ∃ name, type = .typeVariable name ∧ IsName [';'] name := by
  simp only [typeVariable, Option.bind_eq_bind, Option.bind_eq_some_iff, Prod.exists,
    Scanner.expect_eq_some_iff, identifier_reads _ _ _ _, Option.pure_def, Option.some.injEq,
    Prod.mk.injEq]
  constructor
  · rintro ⟨_, rfl, name, _, ⟨rfl, hname, -⟩, _, rfl, rfl, rfl⟩
    exact ⟨by simp [ReferenceType.chars], name, rfl, hname⟩
  · rintro ⟨rfl, name, rfl, hname⟩
    exact ⟨name.toList ++ ';' :: rest, by simp [ReferenceType.chars], name, ';' :: rest,
      ⟨rfl, hname, by simp⟩, rest, rfl, rfl, rfl⟩

/-- Types of objects that nest at most `levels` deep. -/
theorem referenceType_reads (levels : Nat) :
    (referenceType levels).Reads ReferenceType.chars fun type _ => type.Fits levels := by
  induction levels with
  | zero =>
    intro text type rest
    have hdepth := type.depth_pos
    simp only [referenceType, reduceCtorEq, false_iff, not_and]
    exact fun _ hfits => absurd hfits.depth_le (by omega)
  | succ levels ih =>
    intro text type rest
    constructor
    · intro h
      unfold referenceType at h
      split at h
      · simp only [Option.bind_eq_bind, Option.bind_eq_some_iff, Prod.exists,
          classType_reads ih _ _ _, Option.pure_def, Option.some.injEq, Prod.mk.injEq] at h
        obtain ⟨type, _, ⟨htext, haccepts⟩, rfl, rfl⟩ := h
        rw [← ClassType.argumentsFit_iff, ← ReferenceType.classType_fits_iff] at haccepts
        exact ⟨htext, haccepts⟩
      · obtain ⟨htext, name, rfl, hname⟩ := typeVariable_eq_some_iff.mp h
        exact ⟨htext, (ReferenceType.typeVariable_fits_iff levels name).mpr hname⟩
      · obtain ⟨htext, n, innermost, hinnermost, rfl, haccepts⟩ :=
          (arrayType_eq_some_iff ih).mp h
        exact ⟨htext, (ReferenceType.array_fits_iff hinnermost levels n).mpr haccepts⟩
      · cases h
    · rintro ⟨rfl, hfits⟩
      obtain ⟨text, htext⟩ := type.chars_eq_cons
      cases type with
      | classType type =>
        rw [ReferenceType.classType_fits_iff, ClassType.argumentsFit_iff] at hfits
        have hread := (classType_reads ih).read rest hfits
        rw [ReferenceType.chars] at htext ⊢
        rw [htext] at hread ⊢
        simp only [ReferenceType.initial, List.cons_append] at hread ⊢
        simp [referenceType, hread]
      | typeVariable name =>
        rw [ReferenceType.typeVariable_fits_iff] at hfits
        rw [htext]
        refine typeVariable_eq_some_iff.mpr ⟨?_, name, rfl, hfits⟩
        rw [htext]
      | array component =>
        obtain ⟨n, innermost, hinnermost, rfl⟩ := component.exists_nestedArrays
        rw [ReferenceType.array_fits_iff hinnermost] at hfits
        rw [htext]
        refine (arrayType_eq_some_iff ih).mpr ⟨?_, n, innermost, hinnermost, rfl, hfits⟩
        rw [htext]
        rfl

theorem anyReferenceType_reads :
    anyReferenceType.Reads ReferenceType.chars fun type _ => type.Fits maxNesting :=
  referenceType_reads maxNesting

theorem anyClassType_reads :
    anyClassType.Reads ClassType.chars fun type _ => type.ArgumentsFit maxNesting :=
  (classType_reads anyReferenceType_reads).congr fun type _ =>
    (ClassType.argumentsFit_iff maxNesting type).symm

end SignatureScanner

end Nomenclator
