import Nomenclator.Proofs.WrittenDocuments
import Nomenclator.Settings.Writer

/-!
# Settings are read back

The document of settings is read as the settings it was written for, whatever counters, texts
and rules they hold; they then have to be valid like any others.

Results:
* `parse?_document`: the table that the document of settings gives.
* `ofEntries_entries`: the settings that this table gives.
* `Settings.ofText_toText`: reading the document gives the settings if they are valid and else
  what is wrong with them.
-/

namespace Nomenclator

open Toml

/-! ## Entries -/

/-- The entries of the names of classes. -/
def ClassNaming.entries (naming : ClassNaming) : Entries :=
  [("format", .text naming.format), ("package", .text naming.package)]

/-- The entry of a modifier, unless a rule leaves it open. -/
def Requirements.entriesOf (requirements : Requirements) (modifier : Modifier) : Entries :=
  match requirements.get? modifier with
  | some expected => [(modifier.key, .boolean expected)]
  | none => []

/-- The entries of the modifiers that a rule does not leave open. -/
def Requirements.entries (requirements : Requirements) : Entries :=
  Modifier.all.flatMap requirements.entriesOf

/-- The entries of a rule but for its requirements. -/
def FieldRule.ownEntries (rule : FieldRule) : Entries :=
  [("descriptor", .text rule.descriptor), ("name", .text rule.name)]

/-- The entries of a rule. -/
def FieldRule.entries (rule : FieldRule) : Entries :=
  rule.ownEntries ++ [("requirements", .table .header rule.requirements.entries)]

/-- The section of the names of classes. -/
def ClassNaming.toSection (naming : ClassNaming) : Section :=
  ⟨.table ⟨[], "classes"⟩, pairsOf naming.entries⟩

/-- The sections of a rule: what it names, and its requirements. -/
def FieldRule.sections (rule : FieldRule) : List Section :=
  [⟨.element ⟨[], "field_rules"⟩, pairsOf rule.ownEntries⟩,
   ⟨.table ⟨["field_rules"], "requirements"⟩, pairsOf rule.requirements.entries⟩]

namespace Settings

/-- The entries of settings before the first header. -/
def ownEntries (settings : Settings) : Entries :=
  [("next_member", .integer settings.nextMember.toNat),
   ("next_class", .integer settings.nextClass.toNat),
   ("excluded_packages", .array (settings.excludedPackages.map .text)),
   ("field_prefix", .text settings.fieldPrefix),
   ("method_prefix", .text settings.methodPrefix),
   ("map_fields", .boolean settings.mapFields),
   ("map_methods", .boolean settings.mapMethods),
   ("map_synthetic_values", .boolean settings.mapSyntheticValues),
   ("recover_enum_constants", .boolean settings.recoverEnumConstants)]

/-- The entry of the names of classes, if there is one. -/
def classEntries (settings : Settings) : Entries :=
  settings.classes.toList.map fun naming => ("classes", .table .header naming.entries)

/-- The entries of settings. -/
def entries (settings : Settings) : Entries :=
  settings.ownEntries ++ settings.classEntries ++
    tableList "field_rules" (settings.fieldRules.map FieldRule.entries)

/-- The sections of the document. -/
def sections (settings : Settings) : List Section :=
  settings.classes.toList.map ClassNaming.toSection ++
    settings.fieldRules.flatMap FieldRule.sections

end Settings

/-! ## Lines of the document -/

theorem Modifier.isWord_key (modifier : Modifier) : IsWord modifier.key.toList := by
  cases modifier <;> decide

theorem Requirements.saysEntries_write (requirements : Requirements) :
    SaysEntries requirements.write requirements.entries := by
  refine SaysEntries.flatMap fun modifier _ => ?_
  unfold Requirements.entriesOf
  cases requirements.get? modifier with
  | some expected => exact saysEntries_pair modifier.isWord_key (writes_boolean expected)
  | none => exact SaysEntries.nil

theorem ClassNaming.says_write (naming : ClassNaming) :
    Says naming.write naming.toSection.lines := by
  have hentries : SaysEntries (writePair "format" (writeText naming.format) ++
      writePair "package" (writeText naming.package)) naming.entries :=
    (saysEntries_pair (by decide) (writes_text naming.format)).append
      (saysEntries_pair (by decide) (writes_text naming.package))
  have hwords : IsWord "classes".toList := by decide
  have htable := says_table hwords (List.forall_mem_nil _) (by decide) (List.append_nil _).symm
    hentries
  unfold ClassNaming.write
  rw [List.append_assoc]
  exact htable

theorem FieldRule.says_write (rule : FieldRule) :
    Says rule.write (rule.sections.flatMap Section.lines) := by
  have hentries : SaysEntries (writePair "descriptor" (writeText rule.descriptor) ++
      writePair "name" (writeText rule.name)) rule.ownEntries :=
    (saysEntries_pair (by decide) (writes_text rule.descriptor)).append
      (saysEntries_pair (by decide) (writes_text rule.name))
  have helement := says_element (by decide : IsWord "field_rules".toList) hentries
  have hfirst : IsWord "field_rules".toList := by decide
  have hothers : ∀ word ∈ ["requirements".toList], IsWord word := by decide
  have htable := says_table hfirst hothers (by decide)
    (by decide : "field_rules.requirements".toList = _) rule.requirements.saysEntries_write
  unfold FieldRule.write FieldRule.sections
  rw [List.append_assoc _ _ rule.requirements.write, List.append_assoc (writeElementHeader _),
    List.flatMap_cons, List.flatMap_cons, List.flatMap_nil, List.append_nil]
  exact helement.append htable

namespace Settings

theorem saysEntries_writePairs (settings : Settings) :
    SaysEntries settings.writePairs settings.ownEntries := by
  have hmember := saysEntries_pair (by decide : IsWord "next_member".toList)
    (writes_number settings.nextMember.toNat_lt)
  have hclass := saysEntries_pair (by decide : IsWord "next_class".toList)
    (writes_number settings.nextClass.toNat_lt)
  have hexcluded := saysEntries_pair (by decide : IsWord "excluded_packages".toList)
    (writes_texts settings.excludedPackages)
  have hfield := saysEntries_pair (by decide : IsWord "field_prefix".toList)
    (writes_text settings.fieldPrefix)
  have hmethod := saysEntries_pair (by decide : IsWord "method_prefix".toList)
    (writes_text settings.methodPrefix)
  have hfields := saysEntries_pair (by decide : IsWord "map_fields".toList)
    (writes_boolean settings.mapFields)
  have hmethods := saysEntries_pair (by decide : IsWord "map_methods".toList)
    (writes_boolean settings.mapMethods)
  have hvalues := saysEntries_pair (by decide : IsWord "map_synthetic_values".toList)
    (writes_boolean settings.mapSyntheticValues)
  have hconstants := saysEntries_pair (by decide : IsWord "recover_enum_constants".toList)
    (writes_boolean settings.recoverEnumConstants)
  exact (((((((hmember.append hclass).append hexcluded).append hfield).append hmethod).append
    hfields).append hmethods).append hvalues).append hconstants

/-- The lines of the document of settings. -/
theorem says_document (settings : Settings) :
    Says settings.document
      ((pairsOf settings.ownEntries).map .pair ++ settings.sections.flatMap Section.lines) := by
  have hclasses : Says (settings.classes.toList.flatMap ClassNaming.write)
      (settings.classes.toList.flatMap fun naming => naming.toSection.lines) :=
    Says.flatMap fun naming _ => naming.says_write
  have hrules : Says (settings.fieldRules.flatMap FieldRule.write)
      (settings.fieldRules.flatMap fun rule => rule.sections.flatMap Section.lines) :=
    Says.flatMap fun rule _ => rule.says_write
  have hlines : settings.sections.flatMap Section.lines =
      (settings.classes.toList.flatMap fun naming => naming.toSection.lines) ++
        settings.fieldRules.flatMap fun rule => rule.sections.flatMap Section.lines := by
    rw [sections, List.flatMap_append, List.flatMap_map, List.flatMap_assoc]
  rw [hlines, ← List.append_assoc]
  exact (Says.append settings.saysEntries_writePairs hclasses).append hrules

/-! ## The table that the document gives -/

theorem nodup_keysOf_requirements (requirements : Requirements) :
    (keysOf requirements.entries).Nodup := by
  have hkeys (modifiers : List Modifier) :
      keysOf (modifiers.flatMap requirements.entriesOf) =
      (modifiers.filter fun modifier => (requirements.get? modifier).isSome).map Modifier.key := by
    induction modifiers with
    | nil => rfl
    | cons modifier modifiers ih =>
      rw [List.flatMap_cons, keysOf, List.map_append, ← keysOf, ← keysOf, ih, List.filter_cons,
        Requirements.entriesOf]
      cases requirements.get? modifier <;> rfl
  have hall : (Modifier.all.map Modifier.key).Nodup := by decide
  unfold Requirements.entries
  rw [hkeys]
  exact hall.sublist (List.Sublist.map _ List.filter_sublist)

theorem nodup_keysOf_ownEntries (settings : Settings) : (keysOf settings.ownEntries).Nodup := by
  show (["next_member", "next_class", "excluded_packages", "field_prefix", "method_prefix",
    "map_fields", "map_methods", "map_synthetic_values", "recover_enum_constants"]).Nodup
  decide

/-- No entry before the rules has their key. -/
theorem fieldRules_not_mem (settings : Settings) :
    "field_rules" ∉ keysOf (settings.ownEntries ++ settings.classEntries) := by
  unfold ownEntries classEntries
  cases settings.classes <;> simp [keysOf]

theorem foldlM_addSection_classes (settings : Settings) :
    (settings.classes.toList.map ClassNaming.toSection).foldlM Value.addSection
        settings.ownEntries =
      some (settings.ownEntries ++ settings.classEntries) := by
  have hkey : "classes" ∉ keysOf settings.ownEntries := by simp [keysOf, ownEntries]
  unfold classEntries
  cases settings.classes with
  | none => simp
  | some naming =>
    have hnodup : (keysOf naming.entries).Nodup := by simp [keysOf, ClassNaming.entries]
    simp [ClassNaming.toSection, addSection_table hkey hnodup]

/-- The table that the document of settings gives. -/
theorem parse?_document (settings : Settings) :
    Toml.parse? (String.ofList settings.document) = some settings.entries := by
  have hmark : skipByteOrderMark settings.document = settings.document := rfl
  have hlines := statements?_of_says settings.says_document
  have hown : Value.insertPairs [] (pairsOf settings.ownEntries) = some settings.ownEntries :=
    insertPairs_pairsOf settings.nodup_keysOf_ownEntries
  have hrules := foldlM_addSection_elements settings.fieldRules_not_mem
    (fun (rule : FieldRule) (_ : rule ∈ settings.fieldRules) =>
      (by simp [keysOf, FieldRule.ownEntries] :
        (keysOf rule.ownEntries).Nodup ∧ "requirements" ∉ keysOf rule.ownEntries))
    (fun rule _ => nodup_keysOf_requirements rule.requirements) []
  unfold Toml.parse?
  rw [String.toList_ofList, hmark, hlines]
  simp only [Option.bind_eq_bind, Option.bind_some, assemble?, sections_document, hown]
  unfold sections
  rw [List.foldlM_append, foldlM_addSection_classes]
  simp only [tableList, List.append_nil, List.nil_append] at hrules
  exact hrules

end Settings

/-! ## The settings that the table gives -/

theorem readCounter_toNat (counter : UInt32) :
    (Value.integer counter.toNat).readCounter = .ok counter := by
  have hlt := counter.toNat_lt
  rw [Value.readCounter, if_pos (by omega), Int.toNat_natCast, UInt32.ofNat_toNat]

theorem mapM_ok {α β : Type} {read : β → Except DocumentProblem α} {write : α → β}
    (h : ∀ a, read (write a) = .ok a) (items : List α) :
    (items.map write).mapM read = .ok items := by
  induction items with
  | nil => rfl
  | cons a items ih =>
    rw [List.map_cons, List.mapM_cons, h, ih]
    rfl

theorem readList_texts (texts : List String) :
    (Value.array (texts.map .text)).readList Value.readText = .ok texts := by
  have hread (text : String) : Value.readText (.text text) = .ok text := rfl
  exact mapM_ok hread texts

namespace RecordField

variable {ρ : Type} {fields : List (RecordField ρ)} {record after : ρ}

theorem readEntries_cons {entry : String × Value} (h : readEntry fields record entry = .ok after)
    (entries : Entries) :
    readEntries fields record (entry :: entries) = readEntries fields after entries := by
  rw [readEntries, List.foldlM_cons, h]
  rfl

theorem readEntries_append {entries : Entries} (h : readEntries fields record entries = .ok after)
    (more : Entries) :
    readEntries fields record (entries ++ more) = readEntries fields after more := by
  rw [readEntries, List.foldlM_append, ← readEntries, h]
  rfl

end RecordField

/-- A requirement is read under the key of its modifier. -/
theorem Requirements.readEntry_key (requirements : Requirements) (modifier : Modifier)
    (expected : Bool) :
    RecordField.readEntry Requirements.fields requirements (modifier.key, .boolean expected) =
      .ok (requirements.set modifier expected) := by
  cases modifier <;> rfl

/-- What is not left open is set, one modifier after the other. -/
theorem Requirements.readEntries_flatMap (requirements : Requirements)
    (modifiers : List Modifier) (start : Requirements) :
    RecordField.readEntries Requirements.fields start
        (modifiers.flatMap requirements.entriesOf) =
      .ok (modifiers.foldl (fun read modifier =>
        match requirements.get? modifier with
        | some expected => read.set modifier expected
        | none => read) start) := by
  induction modifiers generalizing start with
  | nil => rfl
  | cons modifier modifiers ih =>
    rw [List.flatMap_cons, List.foldl_cons, Requirements.entriesOf]
    cases requirements.get? modifier with
    | none => exact ih start
    | some expected =>
      rw [List.singleton_append,
        RecordField.readEntries_cons (readEntry_key start modifier expected)]
      exact ih _

theorem Requirements.readEntries_entries (requirements : Requirements) :
    RecordField.readEntries Requirements.fields {} requirements.entries = .ok requirements := by
  refine (requirements.readEntries_flatMap Modifier.all {}).trans (congrArg Except.ok ?_)
  obtain ⟨a, b, c, d, e⟩ := requirements
  cases a <;> cases b <;> cases c <;> cases d <;> cases e <;> rfl

theorem FieldRule.read_entries (rule : FieldRule) :
    FieldRule.read (.table .header rule.entries) = .ok rule := by
  have hset (draft : Draft) (value : Value) :
      RecordField.readEntry FieldRule.fields draft ("requirements", value) =
        (RecordField.readRecord Requirements.fields {} value >>= fun requirements =>
          pure { draft with requirements }) :=
    rfl
  have hown : RecordField.readEntries FieldRule.fields {} rule.ownEntries =
      .ok ⟨some rule.descriptor, some rule.name, {}⟩ :=
    rfl
  have hdraft : RecordField.readRecord FieldRule.fields {} (.table .header rule.entries) =
      .ok ⟨some rule.descriptor, some rule.name, rule.requirements⟩ := by
    show RecordField.readEntries FieldRule.fields {} rule.entries = _
    unfold FieldRule.entries
    rw [RecordField.readEntries_append hown, RecordField.readEntries_cons]
    · rfl
    · rw [hset]
      show (RecordField.readEntries Requirements.fields {} rule.requirements.entries >>= _) = _
      rw [rule.requirements.readEntries_entries]
      rfl
  unfold FieldRule.read
  rw [hdraft]
  rfl

namespace Settings

/-- The entries before the first header give all but the names of classes and the rules. -/
theorem readEntries_ownEntries (settings : Settings) :
    RecordField.readEntries fields {} settings.ownEntries =
      .ok { settings with classes := none, fieldRules := [] } := by
  have hmember (read : Settings) (value : Value) :
      RecordField.readEntry fields read ("next_member", value) =
        (value.readCounter >>= fun counter => pure { read with nextMember := counter }) :=
    rfl
  have hclass (read : Settings) (value : Value) :
      RecordField.readEntry fields read ("next_class", value) =
        (value.readCounter >>= fun counter => pure { read with nextClass := counter }) :=
    rfl
  have hexcluded (read : Settings) (value : Value) :
      RecordField.readEntry fields read ("excluded_packages", value) =
        (value.readList Value.readText >>= fun texts =>
          pure { read with excludedPackages := texts }) :=
    rfl
  unfold ownEntries
  rw [RecordField.readEntries_cons (by rw [hmember, readCounter_toNat]; rfl),
    RecordField.readEntries_cons (by rw [hclass, readCounter_toNat]; rfl),
    RecordField.readEntries_cons (by rw [hexcluded, readList_texts]; rfl)]
  rfl

/-- The entry of the names of classes gives them. -/
theorem readEntries_classEntries (settings : Settings) :
    RecordField.readEntries fields { settings with classes := none, fieldRules := [] }
      settings.classEntries = .ok { settings with fieldRules := [] } := by
  unfold classEntries
  cases settings.classes with
  | none => rfl
  | some naming => rfl

/-- The entry of the rules gives them. -/
theorem readEntries_fieldRules (settings : Settings) :
    RecordField.readEntries fields { settings with fieldRules := [] }
      (tableList "field_rules" (settings.fieldRules.map FieldRule.entries)) = .ok settings := by
  have hset (read : Settings) (value : Value) :
      RecordField.readEntry fields read ("field_rules", value) =
        (value.readList FieldRule.read >>= fun rules => pure { read with fieldRules := rules }) :=
    rfl
  have hlist (rules : List FieldRule) :
      (Value.tables (rules.map FieldRule.entries)).readList FieldRule.read = .ok rules := by
    show ((rules.map FieldRule.entries).map (Value.table .header)).mapM FieldRule.read = _
    rw [List.map_map]
    exact mapM_ok FieldRule.read_entries rules
  obtain ⟨nextMember, nextClass, excluded, fieldPrefix, methodPrefix, fields, methods, values,
    constants, classes, rules⟩ := settings
  cases rules with
  | nil => rfl -- Without rules there is no entry of theirs either.
  | cons rule rules =>
    show RecordField.readEntries _ _ [("field_rules", .tables ((rule :: rules).map _))] = _
    rw [RecordField.readEntries_cons (by rw [hset, hlist]; rfl)]
    rfl

/-- The settings that the table of their document gives. -/
theorem ofEntries_entries (settings : Settings) : ofEntries settings.entries = .ok settings := by
  unfold ofEntries entries
  rw [List.append_assoc, RecordField.readEntries_append settings.readEntries_ownEntries,
    RecordField.readEntries_append settings.readEntries_classEntries,
    settings.readEntries_fieldRules]

theorem ofText_eq {text : String} {entries : Entries} {settings : Settings}
    (hparse : Toml.parse? text = some entries) (hentries : ofEntries entries = .ok settings) :
    ofText text = settings.validated := by
  simp only [ofText, hparse, hentries]

/-- Reading what was written for settings gives the settings if they are valid, and else what
    is wrong with them. -/
theorem ofText_toText (settings : Settings) : ofText settings.toText = settings.validated :=
  ofText_eq settings.parse?_document settings.ofEntries_entries

end Settings

end Nomenclator
