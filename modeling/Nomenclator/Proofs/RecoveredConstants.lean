import Nomenclator.Proofs.Reports

/-!
# Which constants are recovered

A scan of an initializer remembers two things. What it remembers is a matter of
which instruction came last: an enumeration constant is waiting for its name if the
last instruction that created one or loaded a string created one, and a name is
waiting for its field if the last instruction that captured a name or stored a
constant captured one.

Results:
* `step_cases`: what an instruction does to a scan.
* `Matches.step`: a scan that remembers what the instructions before a position say
  does so after the instruction at that position.
* `firstBinds_iff`: the constant that the scan binds to a field is that of the first
  store that binds one to it.
* `nameOf?_foldl_bindConstant`, `isSome_field?_foldl_bindConstant`,
  `exists_newlyNamed`: what bindings do to names, to entries and to the count.
* `recoverEnumConstants_window`: recovery by the positions of instructions alone.
-/

namespace Nomenclator

/-! ## Positions -/

/-- Of the positions before `i` that are of the first or of the second kind, the
    last is of the first kind. -/
def Nearest (first second : Nat → Prop) (i : Nat) : Prop :=
  ∃ j < i, first j ∧ ∀ k, j < k → k < i → ¬(first k ∨ second k)

theorem not_nearest_zero (first second : Nat → Prop) : ¬Nearest first second 0 := by
  rintro ⟨j, hj, -⟩
  exact absurd hj (Nat.not_lt_zero j)

theorem nearest_succ (first second : Nat → Prop) (i : Nat) :
    Nearest first second (i + 1) ↔ first i ∨ ¬second i ∧ Nearest first second i := by
  constructor
  · rintro ⟨j, hj, hfirst, hbetween⟩
    rcases Nat.lt_succ_iff_lt_or_eq.mp hj with hlt | rfl
    · have hi : ¬(first i ∨ second i) := hbetween i hlt (Nat.lt_succ_self i)
      refine Or.inr ⟨fun h => hi (Or.inr h), j, hlt, hfirst, fun k hjk hki => ?_⟩
      exact hbetween k hjk (Nat.lt_succ_of_lt hki)
    · exact Or.inl hfirst
  · intro h
    by_cases hi : first i
    · exact ⟨i, Nat.lt_succ_self i, hi, fun k hik hki => absurd hki (by omega)⟩
    · obtain ⟨hsecond, j, hj, hfirst, hbetween⟩ := h.resolve_left hi
      refine ⟨j, Nat.lt_succ_of_lt hj, hfirst, fun k hjk hki => ?_⟩
      rcases Nat.lt_succ_iff_lt_or_eq.mp hki with hlt | rfl
      · exact hbetween k hjk hlt
      · exact not_or.mpr ⟨hi, hsecond⟩

namespace EnumConstants

/-- Stores a constant of the enumeration in one of its fields. -/
def store (className field : String) : Instruction :=
  .field .putStatic className field (descriptor className)

section Window

variable (className : String) (instructions : List Instruction)

/-- A constant is created. -/
def CreatesAt (i : Nat) : Prop := instructions[i]? = some (.new className)

/-- A string is loaded. -/
def LoadsAt (text : String) (i : Nat) : Prop := instructions[i]? = some (.loadString text)

/-- A string is loaded as the name of a constant: since a constant was last created
    no other string was loaded. -/
def CapturesAt (text : String) (i : Nat) : Prop :=
  LoadsAt instructions text i ∧
    Nearest (CreatesAt className instructions) (fun k => ∃ other, LoadsAt instructions other k) i

/-- A constant is stored in a field. -/
def StoresAt (field : String) (i : Nat) : Prop := instructions[i]? = some (store className field)

/-- A name was captured that no store has used. -/
def WaitsAt (constant : String) : Nat → Prop :=
  Nearest (CapturesAt className instructions constant) fun k =>
    (∃ other, CapturesAt className instructions other k) ∨
      ∃ field, StoresAt className instructions field k

/-- A store gives a field the name that was captured last. -/
def BindsAt (field constant : String) (i : Nat) : Prop :=
  StoresAt className instructions field i ∧ WaitsAt className instructions constant i

/-- The first store that binds a name to the field binds this one. -/
def FirstBinds (field constant : String) : Prop :=
  ∃ i, BindsAt className instructions field constant i ∧
    ∀ k < i, ∀ other, ¬BindsAt className instructions field other k

end Window

/-! ## Steps of a scan -/

section Step

variable (className : String) (scan : Scan) (instruction : Instruction)

/-- An instruction creates a constant, is a string that an armed scan meets or stores a
    constant; any other leaves the scan as it is. -/
theorem step_cases :
    (instruction = .new className ∧
      step className scan instruction = ({ scan with armed := true }, none)) ∨
    (∃ text, instruction = .loadString text ∧ scan.armed = true ∧
      step className scan instruction = (⟨false, some text⟩, none)) ∨
    (∃ field, instruction = store className field ∧
      step className scan instruction =
        ({ scan with candidate := none }, scan.candidate.map fun constant => (field, constant))) ∨
    (instruction ≠ .new className ∧
      ¬((∃ text, instruction = .loadString text) ∧ scan.armed = true) ∧
      (¬∃ field, instruction = store className field) ∧
      step className scan instruction = (scan, none)) := by
  cases instruction with
  | new created => by_cases h : created = className <;> simp [step, store, h]
  | loadString text => cases h : scan.armed <;> simp [step, store, h]
  | loadOther => simp [step, store]
  | field access owner name fieldDescriptor =>
    cases access with
    | putStatic =>
      by_cases h : owner = className ∧ fieldDescriptor = descriptor className
      · simp [step, store, h]
      · refine Or.inr (Or.inr (Or.inr ⟨by simp, by simp, ?_, by simp [step, h]⟩))
        rintro ⟨field, hstore⟩
        cases hstore
        exact h ⟨rfl, rfl⟩
    | getStatic => simp [step, store]
    | getField => simp [step, store]
    | putField => simp [step, store]
  | other opcode => simp [step, store]

/-- A created constant arms a scan, and the next string disarms it. -/
theorem step_armed :
    (step className scan instruction).1.armed = true ↔
      instruction = .new className ∨
        ¬(∃ text, instruction = .loadString text) ∧ scan.armed = true := by
  obtain ⟨rfl, heq⟩ | ⟨text, rfl, -, heq⟩ | ⟨field, rfl, heq⟩ | ⟨hnew, hload, -, heq⟩ :=
    step_cases className scan instruction
  · simp [heq]
  · simp [heq]
  · rw [heq]
    simp [store]
  · rw [heq]
    refine ⟨fun harmed => Or.inr ⟨fun h => hload ⟨h, harmed⟩, harmed⟩, fun h => ?_⟩
    exact (h.resolve_left hnew).2

/-- A string that an armed scan meets waits for its field until the next store or the
    next such string. -/
theorem step_candidate (constant : String) :
    (step className scan instruction).1.candidate = some constant ↔
      (instruction = .loadString constant ∧ scan.armed = true) ∨
        ¬(((∃ text, instruction = .loadString text) ∧ scan.armed = true) ∨
          ∃ field, instruction = store className field) ∧ scan.candidate = some constant := by
  obtain ⟨rfl, heq⟩ | ⟨text, rfl, harmed, heq⟩ | ⟨field, rfl, heq⟩ | ⟨-, hload, hstore, heq⟩ :=
    step_cases className scan instruction
  · simp [heq, store]
  · simp [heq, harmed]
  · rw [heq]
    simp [store]
  · rw [heq]
    refine ⟨fun h => Or.inr ⟨not_or.mpr ⟨hload, hstore⟩, h⟩, fun h => (h.resolve_left ?_).2⟩
    rintro ⟨htext, harmed⟩
    exact hload ⟨⟨constant, htext⟩, harmed⟩

/-- A store binds the string that waits. -/
theorem step_binding (field constant : String) :
    (step className scan instruction).2 = some (field, constant) ↔
      instruction = store className field ∧ scan.candidate = some constant := by
  obtain ⟨rfl, heq⟩ | ⟨text, rfl, -, heq⟩ | ⟨stored, rfl, heq⟩ | ⟨-, -, hstore, heq⟩ :=
    step_cases className scan instruction
  · simp [heq, store]
  · simp [heq, store]
  · rw [heq]
    simp [store, and_comm]
  · rw [heq]
    refine iff_of_false (by rintro ⟨⟩) ?_
    rintro ⟨h, -⟩
    exact hstore ⟨field, h⟩

end Step

/-! ## Scans of an initializer -/

/-- A scan remembers what the instructions before a position say. -/
structure Scan.Matches (className : String) (instructions : List Instruction) (i : Nat)
    (scan : Scan) : Prop where
  armed : scan.armed = true ↔
    Nearest (CreatesAt className instructions) (fun k => ∃ text, LoadsAt instructions text k) i
  candidate : ∀ constant,
    scan.candidate = some constant ↔ WaitsAt className instructions constant i

variable {className : String} {instructions : List Instruction} {scan : Scan} {i : Nat}

theorem Scan.matches_start : Scan.Matches className instructions 0 {} where
  armed := iff_of_false Bool.false_ne_true (not_nearest_zero _ _)
  candidate constant := iff_of_false (by rintro ⟨⟩) (not_nearest_zero _ _)

namespace Scan.Matches

variable {instruction : Instruction}

theorem capturesAt_iff (h : Scan.Matches className instructions i scan)
    (hi : instructions[i]? = some instruction) (text : String) :
    CapturesAt className instructions text i ↔
      instruction = .loadString text ∧ scan.armed = true := by
  rw [CapturesAt, LoadsAt, hi, Option.some.injEq, h.armed]

theorem bindsAt_iff (h : Scan.Matches className instructions i scan)
    (hi : instructions[i]? = some instruction) (field constant : String) :
    BindsAt className instructions field constant i ↔
      (EnumConstants.step className scan instruction).2 = some (field, constant) := by
  rw [BindsAt, StoresAt, hi, Option.some.injEq, step_binding, h.candidate]

theorem step (h : Scan.Matches className instructions i scan)
    (hi : instructions[i]? = some instruction) :
    Scan.Matches className instructions (i + 1)
      (EnumConstants.step className scan instruction).1 where
  armed := by
    rw [step_armed, nearest_succ, ← h.armed]
    simp only [CreatesAt, LoadsAt, hi, Option.some.injEq]
  candidate constant := by
    rw [step_candidate, WaitsAt, nearest_succ, ← WaitsAt, ← h.candidate]
    simp only [h.capturesAt_iff hi, StoresAt, hi, Option.some.injEq, exists_and_right]

end Scan.Matches

/-! ## Bindings of a scan -/

theorem lookup_cons_binding (bindings : List (String × String)) (bound constant field : String) :
    ((bound, constant) :: bindings).lookup field =
      if field = bound then some constant else bindings.lookup field := by
  rw [List.lookup_cons]
  by_cases h : field = bound
  · simp [h]
  · rw [beq_eq_false_iff_ne.mpr h, if_neg h]

/-- From a position on, the first store that binds a name to the field binds this
    one. -/
def FirstBindsFrom (className : String) (instructions : List Instruction) (field constant : String)
    (i : Nat) : Prop :=
  ∃ j ≥ i, BindsAt className instructions field constant j ∧
    ∀ k, i ≤ k → k < j → ∀ other, ¬BindsAt className instructions field other k

theorem firstBindsFrom_iff {field constant : String} :
    FirstBindsFrom className instructions field constant i ↔
      BindsAt className instructions field constant i ∨
        (∀ other, ¬BindsAt className instructions field other i) ∧
          FirstBindsFrom className instructions field constant (i + 1) := by
  constructor
  · rintro ⟨j, hij, hbinds, hnone⟩
    rcases Nat.eq_or_lt_of_le hij with rfl | hlt
    · exact Or.inl hbinds
    · refine Or.inr ⟨hnone i le_rfl hlt, j, hlt, hbinds, fun k hik => hnone k ?_⟩
      exact Nat.le_of_succ_le hik
  · rintro (hbinds | ⟨hi, j, hij, hbinds, hnone⟩)
    · exact ⟨i, le_rfl, hbinds, fun k hik hki => absurd hki (Nat.not_lt.mpr hik)⟩
    · refine ⟨j, Nat.le_of_succ_le hij, hbinds, fun k hik hkj => ?_⟩
      rcases Nat.eq_or_lt_of_le hik with rfl | hlt
      · exact hi
      · exact hnone k hlt hkj

/-- The bindings of a scan that goes on from a position are those of the stores from
    there on, the first of a field before the others. -/
theorem lookup_bindings_iff {rest : List Instruction} (hrest : instructions.drop i = rest)
    (h : scan.Matches className instructions i) (field constant : String) :
    (bindings className scan rest).lookup field = some constant ↔
      FirstBindsFrom className instructions field constant i := by
  induction rest generalizing i scan with
  | nil =>
    refine iff_of_false (by simp [bindings]) ?_
    rintro ⟨j, hij, ⟨hstores, -⟩, -⟩
    have hlength : instructions.length ≤ i := List.drop_eq_nil_iff.mp hrest
    rw [StoresAt, List.getElem?_eq_none (hlength.trans hij)] at hstores
    cases hstores
  | cons instruction rest ih =>
    have hi : instructions[i]? = some instruction := by
      rw [← List.head?_drop, hrest]
      rfl
    have hdrop : instructions.drop (i + 1) = rest := by
      rw [← List.tail_drop, hrest]
      rfl
    have hbinds := fun other => h.bindsAt_iff hi field other
    rw [firstBindsFrom_iff, ← ih hdrop (h.step hi)]
    simp only [hbinds, bindings]
    -- The instruction binds nothing, this field or another one.
    rcases (EnumConstants.step className scan instruction).2 with _ | ⟨bound, name⟩
    · simp
    · by_cases hfield : field = bound
      · simp [hfield]
      · simp [lookup_cons_binding, hfield, Ne.symm hfield]

/-- A scan of the whole initializer binds to each field the constant of the first
    store that binds one to it. -/
theorem firstBinds_iff {field constant : String} :
    FirstBinds className instructions field constant ↔
      (bindings className {} instructions).lookup field = some constant := by
  rw [lookup_bindings_iff List.drop_zero Scan.matches_start, FirstBinds, FirstBindsFrom]
  simp

instance (className : String) (instructions : List Instruction) (field constant : String) :
    Decidable (FirstBinds className instructions field constant) :=
  decidable_of_iff _ firstBinds_iff.symm

/-- A store for which no name waits changes nothing: the next string is still captured. -/
example : FirstBinds "e" [.new "e", store "e" "a", .loadString "RED", store "e" "b"] "b" "RED" := by
  decide

/-- Where a store binds a name to a field, one store is the first to do so. -/
theorem exists_firstBinds_of_bindsAt {field constant : String}
    (h : BindsAt className instructions field constant i) :
    ∃ first, FirstBinds className instructions field first := by
  classical
  have hexists : ∃ j other, BindsAt className instructions field other j := ⟨i, constant, h⟩
  obtain ⟨first, hfirst⟩ := Nat.find_spec hexists
  refine ⟨first, Nat.find hexists, hfirst, fun k hk other hother => ?_⟩
  exact Nat.find_min hexists hk ⟨other, hother⟩

theorem exists_bindsAt_iff {field : String} :
    (∃ constant j, BindsAt className instructions field constant j) ↔
      ((bindings className {} instructions).lookup field).isSome := by
  rw [Option.isSome_iff_exists]
  simp only [← firstBinds_iff]
  constructor
  · rintro ⟨constant, j, hbinds⟩
    exact exists_firstBinds_of_bindsAt hbinds
  · rintro ⟨constant, j, hbinds, -⟩
    exact ⟨constant, j, hbinds⟩

end EnumConstants

/-! ## What bindings name -/

namespace Progress

variable (className : String)

/-- The name that bindings of a class have for something. -/
def boundName? (bindings : List (String × String)) : Item → Option String
  | .ofField owner field => if owner = className then bindings.lookup field else none
  | .ofClass _ => none
  | .ofMethod _ _ => none

theorem nameOf?_bindConstant (p : Progress) (field constant : String) (item : Item) :
    (bindConstant className p (field, constant)).renames.nameOf? item =
      (p.renames.nameOf? item).or
        (if item = .ofField className field then some constant else none) := by
  rcases bindConstant_cases className p field constant with ⟨hsome, heq⟩ | ⟨hnone, heq⟩
  · rw [heq, Renames.nameOf?_enterField]
    split_ifs with hitem
    · obtain ⟨name, hname⟩ := Option.isSome_iff_exists.mp hsome
      rw [hitem, Renames.nameOf?, hname, Option.some_or]
    · rw [Option.or_none]
  · rw [heq]
    show (p.renames.setFieldName _ _ _ _).nameOf? item = _
    rw [Renames.nameOf?_setFieldName]
    split_ifs with hitem
    · rw [hitem, Renames.nameOf?, hnone, Option.none_or]
    · rw [Option.or_none]

theorem boundName?_cons (bindings : List (String × String)) (field constant : String)
    (item : Item) :
    boundName? className ((field, constant) :: bindings) item =
      (if item = .ofField className field then some constant else none).or
        (boundName? className bindings item) := by
  cases item with
  | ofClass name => rfl
  | ofMethod owner key => rfl
  | ofField owner name =>
    by_cases howner : owner = className
    · by_cases hname : name = field
      · simp [boundName?, howner, hname]
      · simp [boundName?, howner, hname, EnumConstants.lookup_cons_binding]
    · simp [boundName?, howner]

/-- Bindings name what has no name, each field after its first binding. -/
theorem nameOf?_foldl_bindConstant (bindings : List (String × String)) (p : Progress)
    (item : Item) :
    (bindings.foldl (bindConstant className) p).renames.nameOf? item =
      (p.renames.nameOf? item).or (boundName? className bindings item) := by
  induction bindings generalizing p with
  | nil => cases item <;> simp [boundName?]
  | cons binding bindings ih =>
    obtain ⟨field, constant⟩ := binding
    rw [List.foldl_cons, ih, nameOf?_bindConstant, Option.or_assoc, boundName?_cons]

/-- Every field that is bound has an entry in the end, whether it gets a name or
    not. -/
theorem isSome_field?_foldl_bindConstant (bindings : List (String × String)) (p : Progress)
    (owner field : String) :
    ((bindings.foldl (bindConstant className) p).renames.field? owner field).isSome ↔
      (p.renames.field? owner field).isSome ∨
        owner = className ∧ (bindings.lookup field).isSome := by
  induction bindings generalizing p with
  | nil => simp
  | cons binding bindings ih =>
    obtain ⟨bound, constant⟩ := binding
    have hstep :
        ((bindConstant className p (bound, constant)).renames.field? owner field).isSome ↔
          (p.renames.field? owner field).isSome ∨ owner = className ∧ field = bound := by
      rcases bindConstant_cases className p bound constant with ⟨-, heq⟩ | ⟨-, heq⟩
      · rw [heq, Renames.enterField, Renames.field?_editField]
        split_ifs with h <;> simp [h]
      · rw [heq]
        show ((p.renames.setFieldName _ _ _ _).field? owner field).isSome ↔ _
        rw [Renames.setFieldName, Renames.field?_editField]
        split_ifs with h <;> simp [h]
    rw [List.foldl_cons, ih, hstep, or_assoc, ← and_or_left]
    by_cases hfield : field = bound
    · simp [hfield]
    · simp [hfield, EnumConstants.lookup_cons_binding]

/-- The count of recovered constants grows by the number of things that get a name. -/
theorem exists_newlyNamed (bindings : List (String × String)) (p : Progress) :
    ∃ named : Finset Item,
      (∀ item, item ∈ named ↔ p.renames.nameOf? item = none ∧
        ((bindings.foldl (bindConstant className) p).renames.nameOf? item).isSome) ∧
      (bindings.foldl (bindConstant className) p).tally.recoveredConstants =
        p.tally.recoveredConstants + named.card := by
  induction bindings generalizing p with
  | nil =>
    refine ⟨∅, fun item => iff_of_false (Finset.notMem_empty item) ?_, rfl⟩
    rintro ⟨hnone, hsome⟩
    rw [List.foldl_nil, hnone] at hsome
    cases hsome
  | cons binding bindings ih =>
    obtain ⟨field, constant⟩ := binding
    obtain ⟨named, hnamed, hcard⟩ := ih (bindConstant className p (field, constant))
    rw [List.foldl_cons]
    rcases bindConstant_cases className p field constant with ⟨-, heq⟩ | ⟨hnone, heq⟩
    · refine ⟨named, fun item => ?_, ?_⟩
      · rw [hnamed, heq, Renames.nameOf?_enterField]
      · rw [hcard, heq]
    · have hstep := nameOf?_bindConstant className p field constant
      have hfresh : Item.ofField className field ∉ named := by
        rw [hnamed, hstep, if_pos rfl]
        simp
      refine ⟨insert (.ofField className field) named, fun item => ?_, ?_⟩
      · rw [Finset.mem_insert, hnamed, hstep]
        by_cases hitem : item = .ofField className field
        · refine iff_of_true (Or.inl hitem) ⟨by rw [hitem]; exact hnone, ?_⟩
          rw [nameOf?_foldl_bindConstant, hstep, if_pos hitem]
          simp
        · simp [hitem]
      · rw [hcard, Finset.card_insert_of_notMem hfresh, heq]
        show p.tally.recoveredConstants + 1 + named.card = _
        omega

/-- What the bindings of an initializer have a name for, by the positions of its
    instructions. -/
theorem boundName?_eq_some_iff {className : String} {instructions : List Instruction}
    {item : Item} {constant : String} :
    boundName? className (EnumConstants.bindings className {} instructions) item =
        some constant ↔
      ∃ field, item = .ofField className field ∧
        EnumConstants.FirstBinds className instructions field constant := by
  simp only [EnumConstants.firstBinds_iff]
  cases item with
  | ofClass name => simp [boundName?]
  | ofMethod owner key => simp [boundName?]
  | ofField owner field =>
    by_cases howner : owner = className
    · simp [boundName?, howner]
    · simp [boundName?, howner]

theorem recoverConstants_eq {source : SourceClass} {initializer : Initializer}
    {instructions : List Instruction} (hsuper : source.superName = some EnumConstants.superName)
    (hinit : source.staticInit = some initializer)
    (hcode : initializer.instructions = .ok instructions) (p : Progress) :
    p.recoverConstants source =
      (EnumConstants.bindings source.name {} instructions).foldl
        (bindConstant source.name) p := by
  unfold recoverConstants EnumConstants.ofClass
  rw [if_pos hsuper, hinit]
  simp only [hcode]
  rfl

end Progress

/-! ## Recovery -/

open EnumConstants (BindsAt FirstBinds)

/-- Recovery names exactly the fields without a name into which a store binds a
    string, each after the first such store. It changes no other name, makes an
    entry for every field of such a store, and counts the fields that it names. -/
theorem recoverEnumConstants_window {source : SourceClass} {initializer : Initializer}
    {instructions : List Instruction} (hsuper : source.superName = some "java/lang/Enum")
    (hinit : source.staticInit = some initializer)
    (hcode : initializer.instructions = .ok instructions) (before : Renames) :
    (∀ field, before.fieldName? source.name field = none →
      (∃ constant i, BindsAt source.name instructions field constant i) →
      ∃ constant, FirstBinds source.name instructions field constant ∧
        (recoverEnumConstants source before).renames.fieldName? source.name field =
          some constant) ∧
    (∀ item, (recoverEnumConstants source before).renames.nameOf? item ≠ before.nameOf? item →
      ∃ field, item = .ofField source.name field ∧ before.nameOf? item = none ∧
        ∃ constant i, BindsAt source.name instructions field constant i) ∧
    (∀ owner field, ((recoverEnumConstants source before).renames.field? owner field).isSome ↔
      (before.field? owner field).isSome ∨
        owner = source.name ∧ ∃ constant i, BindsAt source.name instructions field constant i) ∧
    ∃ named : Finset Item,
      (∀ item, item ∈ named ↔ before.nameOf? item = none ∧
        ((recoverEnumConstants source before).renames.nameOf? item).isSome) ∧
      (recoverEnumConstants source before).tally.recoveredConstants = named.card := by
  have hrecover : recoverEnumConstants source before =
      (EnumConstants.bindings source.name {} instructions).foldl
        (Progress.bindConstant source.name) { renames := before } :=
    Progress.recoverConstants_eq hsuper hinit hcode _
  have hnames : ∀ item, (recoverEnumConstants source before).renames.nameOf? item =
      (before.nameOf? item).or (Progress.boundName? source.name
        (EnumConstants.bindings source.name {} instructions) item) := by
    rw [hrecover]
    exact Progress.nameOf?_foldl_bindConstant source.name _ _
  refine ⟨?_, ?_, ?_, ?_⟩
  · rintro field hnone ⟨_, i, hbinds⟩
    obtain ⟨constant, hfirst⟩ := EnumConstants.exists_firstBinds_of_bindsAt hbinds
    have hname := hnames (.ofField source.name field)
    rw [Progress.boundName?_eq_some_iff.mpr ⟨field, rfl, hfirst⟩] at hname
    refine ⟨constant, hfirst, hname.trans ?_⟩
    rw [Renames.nameOf?, hnone, Option.none_or]
  · intro item hne
    rw [hnames] at hne
    cases hbefore : before.nameOf? item with
    | some name => exact absurd (by rw [hbefore, Option.some_or]) hne
    | none =>
      rw [hbefore, Option.none_or] at hne
      obtain ⟨constant, hbound⟩ := Option.ne_none_iff_exists'.mp hne
      obtain ⟨field, rfl, i, hbinds, -⟩ := Progress.boundName?_eq_some_iff.mp hbound
      exact ⟨field, rfl, rfl, constant, i, hbinds⟩
  · intro owner field
    rw [hrecover, Progress.isSome_field?_foldl_bindConstant, EnumConstants.exists_bindsAt_iff]
  · obtain ⟨named, hnamed, hcard⟩ := Progress.exists_newlyNamed source.name
      (EnumConstants.bindings source.name {} instructions) { renames := before }
    rw [hrecover]
    exact ⟨named, hnamed, hcard.trans (Nat.zero_add _)⟩

/-- An initializer with a string before the first constant, a string besides the name
    of a constant, stores without a name, constants created one inside the other and
    a second store into the same field. -/
def tangledInitializer : List Instruction :=
  [.loadString "noise", EnumConstants.store "e" "z",
   .new "e", .new "other", .loadString "RED", .loadString "extra", EnumConstants.store "e" "a",
   .new "e", EnumConstants.store "e" "b", .loadString "BLUE",
   .field .putStatic "other" "b" "Le;", EnumConstants.store "e" "b",
   .new "e", .loadString "OUTER", .new "e", .loadString "INNER", EnumConstants.store "e" "a",
   .new "e", .loadString "PINK", EnumConstants.store "e" "c"]

/-- An enumeration with that initializer. -/
def tangledEnum : SourceClass :=
  (SourceClass.new "e" (some "java/lang/Enum")).setStaticInit tangledInitializer

theorem recoverEnumConstants_window_tangled :
    ∃ after, recoverEnumConstants tangledEnum (Renames.setFieldName {} "e" "c" none "kept") =
        after ∧
      after.renames.fieldName? "e" "a" = some "RED" ∧
      after.renames.fieldName? "e" "b" = some "BLUE" ∧
      after.renames.fieldName? "e" "c" = some "kept" ∧
      (after.renames.field? "e" "c").isSome ∧ ¬(after.renames.field? "e" "z").isSome := by
  obtain ⟨hnames, hother, hentries, -⟩ := recoverEnumConstants_window
    (show tangledEnum.superName = some "java/lang/Enum" from rfl)
    (show tangledEnum.staticInit = some (.decoded tangledInitializer) from rfl)
    (show (Initializer.decoded tangledInitializer).instructions = .ok tangledInitializer from rfl)
    (Renames.setFieldName {} "e" "c" none "kept")
  have hbinds : ∀ field, (∃ constant i, BindsAt "e" tangledInitializer field constant i) ↔
      ((EnumConstants.bindings "e" {} tangledInitializer).lookup field).isSome :=
    fun field => EnumConstants.exists_bindsAt_iff
  refine ⟨_, rfl, ?_, ?_, ?_, ?_, ?_⟩
  · obtain ⟨constant, hfirst, hname⟩ := hnames "a" (by decide) ((hbinds "a").mpr (by decide))
    rw [← EnumConstants.firstBinds_iff.mp hfirst] at hname
    exact hname
  · obtain ⟨constant, hfirst, hname⟩ := hnames "b" (by decide) ((hbinds "b").mpr (by decide))
    rw [← EnumConstants.firstBinds_iff.mp hfirst] at hname
    exact hname
  · by_contra hchanged
    obtain ⟨field, hfield, hnone, -⟩ := hother (.ofField "e" "c") hchanged
    exact absurd hnone (by decide)
  · exact (hentries "e" "c").mpr (Or.inl (by decide))
  · rw [hentries "e" "z"]
    rintro (hbefore | ⟨-, hbound⟩)
    · exact absurd hbefore (by decide)
    · exact absurd ((hbinds "z").mp hbound) (by decide)

end Nomenclator
