import Nomenclator.Descriptor
import Nomenclator.Proofs.Scanning
import Nomenclator.Proofs.SignatureForm

/-!
# Descriptors against their text

A descriptor is read exactly as it is written. Types have no marks between them: a letter ends
itself, a class name ends at the first `;`, and an array ends where its component does. So a
type is read in one way only, whatever follows it, and parameters are read until a `)` stands
where a type would start. A `)` inside a class name is part of the name.

A refused method descriptor is reported from the place where no type starts, or as a whole if
its parameters are in order.

Results:
* `FieldType.read_eq_ok_iff`: a type is taken from the front of a text exactly if the text
  starts with it and its class names can be told from what follows them.
* `readParameters_eq_some_iff`, `readResult?_eq_some_iff`: the same for parameters up to their
  `)`, and for results.
* `FieldType.read_error_suffix`, `readParameters_error_suffix`: what is reported ends the text.
* `descriptors_exact`: reading and writing of descriptors are inverse to each other, and what
  is reported of a method descriptor that is refused.
-/

namespace Nomenclator

/-! ## Types -/

namespace BaseType

theorem ofLetter?_letter (type : BaseType) : ofLetter? type.letter = some type := by
  cases type <;> rfl

theorem letter_of_ofLetter? {c : Char} {type : BaseType} (h : ofLetter? c = some type) :
    type.letter = c := by
  unfold ofLetter? at h
  split at h <;> cases h <;> rfl

/-- No letter of a base type announces a class or an array, or ends the parameters. -/
theorem letter_ne (type : BaseType) :
    type.letter ≠ 'L' ∧ type.letter ≠ '[' ∧ type.letter ≠ ')' := by
  cases type <;> decide

end BaseType

namespace FieldType

/-- The class names in a type: one for objects and arrays of them, and none for numbers. -/
def classNames : FieldType → List String
  | base _ => []
  | object name => [name]
  | array component => component.classNames

/-- No class name in the type is empty or contains the `;` that would end it. -/
def WellNamed (type : FieldType) : Prop := ∀ name ∈ type.classNames, IsName [';'] name

instance (type : FieldType) : Decidable type.WellNamed :=
  inferInstanceAs (Decidable (∀ name ∈ type.classNames, IsName [';'] name))

theorem wellNamed_base (type : BaseType) : (base type).WellNamed := by
  intro name hname
  cases hname

theorem wellNamed_object_iff {name : String} :
    (object name).WellNamed ↔ name ≠ "" ∧ ∀ c ∈ name.toList, c ≠ ';' := by
  simp only [WellNamed, classNames, List.forall_mem_singleton]
  constructor
  · intro h
    exact ⟨h.ne_empty, fun c hc hend => h.no_stop c hc (List.mem_singleton.mpr hend)⟩
  · rintro ⟨hne, hstop⟩
    exact ⟨hne, fun c hc hend => hstop c hc (List.mem_singleton.mp hend)⟩

theorem read_base (type : BaseType) (rest : List Char) :
    read (type.letter :: rest) = .ok (base type, rest) := by
  obtain ⟨hclass, harray, -⟩ := type.letter_ne
  rw [read.eq_4 _ _ hclass harray, BaseType.ofLetter?_letter]

theorem read_object {name : String} (h : (object name).WellNamed) (rest : List Char) :
    read ('L' :: (name.toList ++ ';' :: rest)) = .ok (object name, rest) := by
  obtain ⟨hne, hstop⟩ := wellNamed_object_iff.mp h
  have hname : ∀ c ∈ name.toList, decide (c ≠ ';') = true :=
    fun c hc => decide_eq_true (hstop c hc)
  have hend : ∀ c ∈ (';' :: rest).head?, decide (c ≠ ';') = false := by
    intro c hc
    obtain rfl := Option.some.inj hc
    rfl
  have hfull : name.toList.isEmpty = false := by
    rw [List.isEmpty_eq_false_iff]
    exact fun hnil => hne (String.toList_eq_nil_iff.mp hnil)
  rw [read.eq_2, Scanner.dropWhile_run hname hend]
  simp only [Scanner.takeWhile_run hname hend, hfull, Bool.false_eq_true, if_false,
    String.ofList_toList]

/-- A type is read from its characters, whatever follows them. -/
theorem read_chars {type : FieldType} (h : type.WellNamed) (rest : List Char) :
    read (type.chars ++ rest) = .ok (type, rest) := by
  induction type with
  | base type => exact read_base type rest
  | object name =>
    rw [chars, List.cons_append, List.cons_append, List.append_assoc, List.singleton_append]
    exact read_object h rest
  | array component ih => rw [chars, List.cons_append, read.eq_3, ih h]

/-- What is read as a type is written so. -/
theorem chars_of_read {text rest : List Char} {type : FieldType}
    (h : read text = .ok (type, rest)) : text = type.chars ++ rest ∧ type.WellNamed := by
  fun_induction read text generalizing type rest with
  | case1 => cases h
  | case2 text d behind hd name => cases h
  | case3 text d behind hd name =>
    rename_i hfull
    obtain ⟨rfl, rfl⟩ := Prod.mk.injEq .. ▸ Except.ok.inj h
    have hstop : d = ';' := by
      have hhead := Scanner.head?_dropWhile (· ≠ ';') text d (by rw [hd]; rfl)
      simpa using hhead
    have hall : ∀ c ∈ name, decide (c ≠ ';') = true :=
      List.all_eq_true.mp List.all_takeWhile
    refine ⟨?_, wellNamed_object_iff.mpr ⟨?_, ?_⟩⟩
    · have hsplit : name ++ d :: behind = text := by
        rw [← hd]
        exact List.takeWhile_append_dropWhile
      rw [chars, String.toList_ofList, List.cons_append, List.cons_append, List.append_assoc,
        List.singleton_append, ← hstop, hsplit]
    · intro hnil
      rw [String.ofList_eq_empty_iff] at hnil
      exact hfull (List.isEmpty_iff.mpr hnil)
    · rw [String.toList_ofList]
      exact fun c hc => of_decide_eq_true (hall c hc)
  | case4 text hd => cases h
  | case5 text component behind hread ih =>
    obtain ⟨rfl, rfl⟩ := Prod.mk.injEq .. ▸ Except.ok.inj h
    obtain ⟨htext, hnamed⟩ := ih hread
    exact ⟨by rw [chars, List.cons_append, ← htext], hnamed⟩
  | case6 text found hread ih => cases h
  | case7 c text hL hA type' hc =>
    obtain ⟨rfl, rfl⟩ := Prod.mk.injEq .. ▸ Except.ok.inj h
    exact ⟨by rw [chars, BaseType.letter_of_ofLetter? hc, List.singleton_append],
      wellNamed_base type'⟩
  | case8 c text hL hA hc => cases h

/-- A type is taken from the front of a text exactly if the text starts with it. -/
theorem read_eq_ok_iff {text rest : List Char} {type : FieldType} :
    read text = .ok (type, rest) ↔ text = type.chars ++ rest ∧ type.WellNamed := by
  constructor
  · exact chars_of_read
  · rintro ⟨rfl, hnamed⟩
    exact read_chars hnamed rest

/-- Where no type starts is the end of the text that was to be read. -/
theorem read_error_suffix {text found : List Char} (h : read text = .error found) :
    found <:+ text := by
  fun_induction read text generalizing found with
  | case3 | case5 | case7 => cases h
  | case6 text found' hread ih =>
    cases h
    exact (ih hread).trans (List.suffix_cons _ _)
  | _ =>
    cases h
    exact List.suffix_rfl

/-- No type starts with the character that ends the parameters. -/
theorem chars_eq_cons (type : FieldType) : ∃ c text, type.chars = c :: text ∧ c ≠ ')' := by
  cases type with
  | base type => exact ⟨_, _, rfl, type.letter_ne.2.2⟩
  | object name => exact ⟨_, _, rfl, by decide⟩
  | array component => exact ⟨_, _, rfl, by decide⟩

/-- A text stands for a type exactly if it is the descriptor of that type. -/
theorem parse_descriptor_iff {s : String} {type : FieldType} :
    parse s = .ok type ↔ type.descriptor = s ∧ type.WellNamed := by
  have hparse : parse s = .ok type ↔ read s.toList = .ok (type, []) := by
    unfold parse
    split
    · next found hread => simp [hread]
    · next found c rest hread => simp [hread]
    · next found hread => simp [hread]
  rw [hparse, read_eq_ok_iff, List.append_nil, descriptor, ← String.toList_inj,
    String.toList_ofList, eq_comm]

end FieldType

/-! ## Methods -/

namespace MethodDescriptor

/-- No class name in the parameters or in the result is empty or contains a `;`. -/
def WellNamed (method : MethodDescriptor) : Prop :=
  (∀ type ∈ method.parameters, type.WellNamed) ∧ ∀ type ∈ method.result, type.WellNamed

instance (method : MethodDescriptor) : Decidable method.WellNamed :=
  inferInstanceAs (Decidable ((∀ type ∈ method.parameters, type.WellNamed) ∧
    ∀ type ∈ method.result, type.WellNamed))

/-- A text starts with a list of parameters, up to and with the character that ends it. -/
def StartsWithParameters (parameters : List FieldType) (text behind : List Char) : Prop :=
  text = parameters.flatMap FieldType.chars ++ ')' :: behind ∧
    ∀ type ∈ parameters, type.WellNamed

theorem readParameters_chars {parameters : List FieldType}
    (h : ∀ type ∈ parameters, type.WellNamed) (behind : List Char) :
    readParameters (parameters.flatMap FieldType.chars ++ ')' :: behind) =
      .ok (some (parameters, behind)) := by
  induction parameters with
  | nil => rw [List.flatMap_nil, List.nil_append, readParameters]
  | cons type parameters ih =>
    have hread := FieldType.read_chars (h type List.mem_cons_self)
      (parameters.flatMap FieldType.chars ++ ')' :: behind)
    have hrest := ih fun other hother => h other (List.mem_cons_of_mem _ hother)
    -- The first character belongs to the type, so the end has not been reached.
    obtain ⟨c, text, hchars, hc⟩ := type.chars_eq_cons
    rw [List.flatMap_cons, List.append_assoc]
    rw [hchars, List.cons_append] at hread ⊢
    rw [readParameters.eq_3 _ _ hc]
    split
    · next found herror => rw [hread] at herror; cases herror
    · next first rest hok =>
      rw [hread] at hok
      obtain ⟨rfl, rfl⟩ := Prod.mk.injEq .. ▸ Except.ok.inj hok
      rw [hrest]

theorem startsWithParameters_of_read {text behind : List Char} {parameters : List FieldType}
    (h : readParameters text = .ok (some (parameters, behind))) :
    StartsWithParameters parameters text behind := by
  fun_induction readParameters text generalizing parameters behind with
  | case1 => cases h
  | case2 rest =>
    cases h
    exact ⟨rfl, fun type htype => absurd htype List.not_mem_nil⟩
  | case3 c text hc found hread => cases h
  | case4 c text hc type rest hread types behind' hrest ih =>
    cases h
    obtain ⟨htext, hnamed⟩ := FieldType.chars_of_read hread
    obtain ⟨hbehind, hothers⟩ := ih hrest
    refine ⟨by rw [htext, hbehind, List.flatMap_cons, List.append_assoc], ?_⟩
    exact List.forall_mem_cons.mpr ⟨hnamed, hothers⟩
  | case5 c text hc type rest hread hother ih => exact absurd h (hother _ _)

/-- Parameters are taken from a text exactly if it starts with them. -/
theorem readParameters_eq_some_iff {text behind : List Char} {parameters : List FieldType} :
    readParameters text = .ok (some (parameters, behind)) ↔
      StartsWithParameters parameters text behind := by
  constructor
  · exact startsWithParameters_of_read
  · rintro ⟨rfl, hnamed⟩
    exact readParameters_chars hnamed behind

/-- Where no parameter starts is the end of the text that was to be read. -/
theorem readParameters_error_suffix {text found : List Char}
    (h : readParameters text = .error found) : found <:+ text := by
  fun_induction readParameters text generalizing found with
  | case1 => cases h
  | case2 rest => cases h
  | case3 c text hc found' hread =>
    cases h
    exact FieldType.read_error_suffix hread
  | case4 c text hc type rest hread types behind' hrest ih => cases h
  | case5 c text hc type rest hread hother ih =>
    rw [(FieldType.chars_of_read hread).1]
    exact (ih h).trans (List.suffix_append _ _)

/-- A result is read from the whole of a text exactly if the text is that of the result. -/
theorem readResult?_eq_some_iff {text : List Char} {result : Option FieldType} :
    readResult? text = some result ↔
      text = (match result with
        | some type => type.chars
        | none => ['V']) ∧ ∀ type ∈ result, type.WellNamed := by
  -- The letter for no result starts no type.
  have hvoid : FieldType.read ['V'] = .error ['V'] := by decide
  unfold readResult?
  split_ifs with htext
  · subst htext
    cases result with
    | none => simp
    | some type =>
      have hnot : ¬(['V'] = type.chars ∧ type.WellNamed) := by
        intro h
        have hread : FieldType.read ['V'] = .ok (type, []) :=
          FieldType.read_eq_ok_iff.mpr (by rwa [List.append_nil])
        rw [hvoid] at hread
        cases hread
      simpa using hnot
  · cases result with
    | none =>
      simp only [htext, false_and, iff_false]
      split <;> simp
    | some type =>
      have hread : FieldType.read text = .ok (type, []) ↔ _ := FieldType.read_eq_ok_iff
      rw [List.append_nil] at hread
      simp only [Option.mem_def, Option.some.injEq, forall_eq']
      rw [← hread]
      split
      · next found hfound => simp [hfound]
      · next hother => simpa using hother type

/-- A text stands for a method if it has an opening parenthesis, parameters and a result. -/
theorem parse_eq_ok_iff_parts {s : String} {method : MethodDescriptor} :
    parse s = .ok method ↔
      ∃ text behind, s.toList = '(' :: text ∧
        StartsWithParameters method.parameters text behind ∧
        readResult? behind = some method.result := by
  simp only [← readParameters_eq_some_iff]
  unfold parse
  split
  · next text hopen =>
    split
    · next found hread => simp [hopen, hread]
    · next hread => simp [hopen, hread]
    · next parameters behind hread =>
      obtain ⟨parameters', result'⟩ := method
      split
      · next result hresult => simp [hopen, hread, hresult]
      · next hresult => simp [hopen, hread, hresult]
  · next hopen =>
    refine iff_of_false (fun h => by cases h) ?_
    rintro ⟨text, behind, hopen', -⟩
    exact hopen text hopen'

/-- A text stands for a method exactly if it is the descriptor of that method. -/
theorem parse_descriptor_iff {s : String} {method : MethodDescriptor} :
    parse s = .ok method ↔ method.descriptor = s ∧ method.WellNamed := by
  rw [parse_eq_ok_iff_parts, descriptor, ← String.toList_inj, String.toList_ofList, chars]
  simp only [readResult?_eq_some_iff]
  constructor
  · rintro ⟨text, behind, hopen, ⟨rfl, hparameters⟩, rfl, hresult⟩
    exact ⟨hopen.symm, hparameters, hresult⟩
  · rintro ⟨htext, hparameters, hresult⟩
    exact ⟨_, _, htext.symm, ⟨rfl, hparameters⟩, rfl, hresult⟩

/-- A refused text is reported as a whole, or from where a parameter should have started. -/
theorem parse_error_cases {s : String} {cause : Malformed} (h : parse s = .error cause) :
    cause = .badDescriptor s ∨
      ∃ text found, s.toList = '(' :: text ∧ readParameters text = .error found ∧
        cause = .badDescriptor (String.ofList found) := by
  unfold parse at h
  split at h
  · next text hopen =>
    split at h
    · next found hread => exact Or.inr ⟨text, found, hopen, hread, (Except.error.inj h).symm⟩
    · exact Or.inl (Except.error.inj h).symm
    · split at h
      · cases h
      · exact Or.inl (Except.error.inj h).symm
  · exact Or.inl (Except.error.inj h).symm

/-- What is reported ends the text, and is all of it if its parameters are in order. -/
theorem parse_error_reports {s : String} {cause : Malformed} (h : parse s = .error cause) :
    ∃ found, cause = .badDescriptor found ∧ found.toList <:+ s.toList ∧
      ∀ parameters text behind, s.toList = '(' :: text →
        StartsWithParameters parameters text behind → found = s := by
  rcases parse_error_cases h with rfl | ⟨text, found, hopen, hread, rfl⟩
  · exact ⟨s, rfl, List.suffix_rfl, fun _ _ _ _ _ => rfl⟩
  · refine ⟨String.ofList found, rfl, ?_, fun parameters text' behind hopen' hstarts => ?_⟩
    · rw [String.toList_ofList, hopen]
      exact (readParameters_error_suffix hread).trans (List.suffix_cons _ _)
    · -- Parameters that are in order are read, so nothing would have been reported.
      rw [hopen] at hopen'
      obtain rfl := (List.cons.inj hopen').2
      rw [readParameters_eq_some_iff.mpr hstarts] at hread
      cases hread

end MethodDescriptor

/-- Reading and writing of descriptors are inverse to each other: a text stands for a type or a
    method exactly if it is the descriptor of it and no class name in it is empty or contains a
    `;`. If a text stands for no method, what is reported is an end of the text, and the whole
    text if it starts with a list of parameters in parentheses. -/
theorem descriptors_exact (s : String) :
    (∀ type, FieldType.parse s = .ok type ↔ type.descriptor = s ∧ type.WellNamed) ∧
    (∀ method, MethodDescriptor.parse s = .ok method ↔
      method.descriptor = s ∧ method.WellNamed) ∧
    ∀ cause, MethodDescriptor.parse s = .error cause →
      ∃ found, cause = .badDescriptor found ∧ found.toList <:+ s.toList ∧
        ∀ parameters text behind, s.toList = '(' :: text →
          MethodDescriptor.StartsWithParameters parameters text behind → found = s :=
  ⟨fun _ => FieldType.parse_descriptor_iff, fun _ => MethodDescriptor.parse_descriptor_iff,
    fun _ => MethodDescriptor.parse_error_reports⟩

end Nomenclator
