import Nomenclator.Proofs.WrittenValues

/-!
# Written documents are read back

A document that is written as pairs, each on a line of its own, and sections, each behind a
blank line, is read as these pairs and sections, and gives the table that one expects.

Results:
* `statement_pair`, `statement_table`, `statement_element`: the lines that are written.
* `Says`: the lines that a text consists of.
* `sections_document`: the pairs and sections of these lines.
* `foldlM_addSection_elements`: what a list of tables, each with a table inside, gives.
-/

namespace Nomenclator.Toml

open Scanner (TakesRow)

/-! ## Keys -/

/-- A text that can be written as a key without quotes. -/
def IsWord (word : List Char) : Prop := word ≠ [] ∧ ∀ c ∈ word, isWordChar c = true

instance (word : List Char) : Decidable (IsWord word) :=
  decidable_of_iff (word.isEmpty = false ∧ word.all isWordChar = true) (by simp [IsWord])

/-- The text does not go on with a character of a word. -/
def EndsWord (rest : List Char) : Prop := ∀ c ∈ rest.head?, isWordChar c = false

theorem skipBlanks_of_not_blank {c : Char} (h : isBlank c = false) (rest : List Char) :
    skipBlanks (c :: rest) = c :: rest := by
  simp [skipBlanks, h]

theorem length_skipBlanks_le (text : List Char) : (skipBlanks text).length ≤ text.length :=
  (List.dropWhile_sublist _).length_le

/-- A character of a word has no other meaning at the start of a line or key. -/
theorem ne_of_isWordChar {c : Char} (h : isWordChar c = true) :
    isBlank c = false ∧ c ≠ '"' ∧ c ≠ '\'' ∧ c ≠ '[' ∧ c ≠ '#' ∧ c ≠ '\n' ∧ c ≠ '\r' := by
  refine ⟨?_, ?_, ?_, ?_, ?_, ?_, ?_⟩
  · by_contra hblank
    simp only [isBlank, Bool.not_eq_false, Bool.or_eq_true, decide_eq_true_eq] at hblank
    rcases hblank with rfl | rfl <;> (revert h; decide)
  all_goals
    rintro rfl
    revert h
    decide

theorem IsWord.exists_cons {word : List Char} (h : IsWord word) :
    ∃ c behind, word = c :: behind ∧ isWordChar c = true := by
  obtain ⟨c, behind, rfl⟩ := List.exists_cons_of_ne_nil h.1
  exact ⟨c, behind, rfl, h.2 c List.mem_cons_self⟩

theorem spacedKey_word {word rest : List Char} (hword : IsWord word) (hrest : EndsWord rest) :
    spacedKey (word ++ rest) = some (String.ofList word, skipBlanks rest) := by
  have hrun : Scanner.run1 isWordChar (word ++ rest) = some (word, rest) :=
    Scanner.run1_eq_some_iff.mpr ⟨rfl, hword.1, hword.2, hrest⟩
  obtain ⟨c, behind, rfl, hc⟩ := hword.exists_cons
  obtain ⟨hblank, hdouble, hsingle, -⟩ := ne_of_isWordChar hc
  have hquoted : quotedLine (c :: behind ++ rest) = none := by
    rw [List.cons_append]
    unfold quotedLine
    split <;> simp_all
  unfold spacedKey
  rw [List.cons_append, skipBlanks_of_not_blank hblank, ← List.cons_append, simpleKey, hquoted]
  dsimp only
  rw [hrun]
  rfl

/-- Words with dots before them. -/
def dotted (words : List (List Char)) : List Char := words.flatMap fun word => '.' :: word

theorem endsWord_dotted (words : List (List Char)) {rest : List Char} (hrest : EndsWord rest) :
    EndsWord (dotted words ++ rest) := by
  cases words with
  | nil => exact hrest
  | cons word words =>
    rintro c ⟨⟩
    decide

theorem dotted_row {words : List (List Char)} (hwords : ∀ word ∈ words, IsWord word)
    {rest : List Char} (hrest : EndsWord rest)
    (hdot : Scanner.startsWith '.' (skipBlanks rest) = false) :
    TakesRow (Scanner.startsWith '.') (fun ahead => spacedKey (ahead.drop 1))
      (skipBlanks (dotted words ++ rest)) (words.map String.ofList) (skipBlanks rest) := by
  induction words with
  | nil => exact .nil hdot
  | cons word words ih =>
    rw [List.forall_mem_cons] at hwords
    have hread := spacedKey_word hwords.1 (endsWord_dotted words hrest)
    have hstart : skipBlanks (dotted (word :: words) ++ rest) =
        '.' :: (word ++ (dotted words ++ rest)) := by
      simp [dotted, skipBlanks, isBlank]
    have hshorter := length_skipBlanks_le (dotted words ++ rest)
    rw [hstart]
    refine .cons rfl hread ?_ (ih hwords.2)
    simp only [List.length_cons, List.length_append] at hshorter ⊢
    omega

/-- Words with dots between them are read as a key. -/
theorem dottedKey_words {first : List Char} {others : List (List Char)} (hfirst : IsWord first)
    (hothers : ∀ word ∈ others, IsWord word) (hfew : others.length + 1 < keyLimit)
    {rest : List Char} (hrest : EndsWord rest)
    (hdot : Scanner.startsWith '.' (skipBlanks rest) = false) :
    dottedKey (first ++ (dotted others ++ rest)) =
      some (⟨((first :: others).map String.ofList).dropLast,
        (others.map String.ofList).getLastD (String.ofList first)⟩, skipBlanks rest) := by
  unfold dottedKey
  rw [spacedKey_word hfirst (endsWord_dotted others hrest)]
  simp only [Option.bind_eq_bind, Option.bind_some, (dotted_row hothers hrest hdot).repeatWhile]
  rw [if_pos (by simpa using hfew)]
  rfl

/-! ## Lines -/

theorem lineEnd?_feed (behind : List Char) : lineEnd? ('\n' :: behind) = some behind := rfl

/-- A line that starts with a word is not blank. -/
theorem lineEnd?_word {c : Char} (hc : isWordChar c = true) (rest : List Char) :
    lineEnd? (c :: rest) = none := by
  obtain ⟨hblank, -, -, -, hcomment, hfeed, hreturn⟩ := ne_of_isWordChar hc
  have hskip : skipComment (c :: rest) = c :: rest := by
    unfold skipComment
    split <;> simp_all
  rw [lineEnd?, skipBlanks_of_not_blank hblank, hskip]
  exact newline?_cons_of_ne hfeed hreturn rest

/-- A line that starts with a word is a pair. -/
theorem statement_word {c : Char} (hc : isWordChar c = true) {rest behind : List Char}
    {pair : Pair} (hpair : pairOf value (c :: rest) = some (pair, '\n' :: behind)) :
    statement (c :: rest) = some (.pair pair, behind) := by
  obtain ⟨hblank, -, -, hbracket, -⟩ := ne_of_isWordChar hc
  unfold statement
  rw [skipBlanks_of_not_blank hblank]
  split
  · next heq => exact absurd (List.cons.inj heq).1 hbracket
  · next heq => exact absurd (List.cons.inj heq).1 hbracket
  · rw [lineEnd?_word hc]
    simp only [hpair, Option.bind_eq_bind, Option.bind_some, lineEnd?_feed]

theorem skipBlanks_space {c : Char} (h : isBlank c = false) (rest : List Char) :
    skipBlanks (' ' :: c :: rest) = c :: rest := by
  have hspace : isBlank ' ' = true := rfl
  simp [skipBlanks, hspace, h]

/-- A word, an equals sign and a value with blanks between them are a pair. -/
theorem pairOf_written {key : String} (hkey : IsWord key.toList) {written : List Char}
    {value : Value} (hvalue : Writes written value) (behind : List Char) :
    pairOf Toml.value (key.toList ++ ' ' :: '=' :: ' ' :: (written ++ '\n' :: behind)) =
      some (⟨⟨[], key⟩, value⟩, '\n' :: behind) := by
  have hends : EndsWord (' ' :: '=' :: ' ' :: (written ++ '\n' :: behind)) := by
    rintro c ⟨⟩
    decide
  have hdotted : dottedKey (key.toList ++ ' ' :: '=' :: ' ' :: (written ++ '\n' :: behind)) =
      some (⟨[], key⟩, '=' :: ' ' :: (written ++ '\n' :: behind)) := by
    have hwords := dottedKey_words hkey (List.forall_mem_nil _) (by decide) hends rfl
    simpa [dotted, skipBlanks, isBlank] using hwords
  have hread := hvalue.read behind
  obtain ⟨first, more, rfl, hfirst⟩ := hvalue.start
  unfold pairOf
  rw [hdotted]
  simp only [Option.bind_eq_bind, Option.bind_some]
  show (Toml.value (skipBlanks (' ' :: first :: (more ++ '\n' :: behind)))).bind _ = _
  rw [skipBlanks_space hfirst, ← List.cons_append, hread]
  simp [skipBlanks, isBlank]

/-- The line of a pair. -/
theorem statement_pair {key : String} (hkey : IsWord key.toList) {written : List Char}
    {value : Value} (hvalue : Writes written value) (behind : List Char) :
    statement (writePair key written ++ behind) = some (.pair ⟨⟨[], key⟩, value⟩, behind) := by
  have hline : writePair key written ++ behind =
      key.toList ++ ' ' :: '=' :: ' ' :: (written ++ '\n' :: behind) := by
    simp [writePair]
  have hpair := pairOf_written hkey hvalue behind
  obtain ⟨c, more, heq, hc⟩ := hkey.exists_cons
  rw [hline]
  rw [heq, List.cons_append] at hpair ⊢
  exact statement_word hc hpair

/-- What stands between the brackets of a header: words with dots between them. -/
theorem dottedKey_header {first : List Char} {others : List (List Char)} (hfirst : IsWord first)
    (hothers : ∀ word ∈ others, IsWord word) (hfew : others.length + 1 < keyLimit)
    (rest : List Char) :
    dottedKey (first ++ (dotted others ++ ']' :: rest)) =
      some (⟨((first :: others).map String.ofList).dropLast,
        (others.map String.ofList).getLastD (String.ofList first)⟩, ']' :: rest) := by
  have hends : EndsWord (']' :: rest) := by
    rintro c ⟨⟩
    decide
  exact dottedKey_words hfirst hothers hfew hends rfl

/-- The header of a table. -/
theorem statement_table {first : List Char} {others : List (List Char)} (hfirst : IsWord first)
    (hothers : ∀ word ∈ others, IsWord word) (hfew : others.length + 1 < keyLimit)
    (behind : List Char) :
    statement ('[' :: (first ++ (dotted others ++ ']' :: '\n' :: behind))) =
      some (.header (.table ⟨((first :: others).map String.ofList).dropLast,
        (others.map String.ofList).getLastD (String.ofList first)⟩), behind) := by
  have hkey := dottedKey_header hfirst hothers hfew ('\n' :: behind)
  obtain ⟨c, more, rfl, hc⟩ := hfirst.exists_cons
  obtain ⟨-, -, -, hbracket, -⟩ := ne_of_isWordChar hc
  unfold statement
  rw [skipBlanks_of_not_blank (by decide)]
  split
  · next heq => exact absurd (List.cons.inj (List.cons.inj heq).2).1 hbracket
  · next heq =>
    obtain ⟨-, rfl⟩ := List.cons.inj heq
    simp only [hkey, Option.bind_eq_bind, Option.bind_some]
    rfl
  · next hsingle => exact absurd rfl (hsingle _)

/-- The header of the next of several tables. -/
theorem statement_element {word : List Char} (hword : IsWord word) (behind : List Char) :
    statement ('[' :: '[' :: (word ++ ']' :: ']' :: '\n' :: behind)) =
      some (.header (.element ⟨[], String.ofList word⟩), behind) := by
  have hkey : dottedKey (word ++ ']' :: ']' :: '\n' :: behind) =
      some (⟨[], String.ofList word⟩, ']' :: ']' :: '\n' :: behind) :=
    dottedKey_header hword (List.forall_mem_nil _) (by decide) (']' :: '\n' :: behind)
  show (dottedKey (word ++ ']' :: ']' :: '\n' :: behind)).bind _ = _
  rw [hkey]
  rfl

/-! ## Texts of several lines -/

/-- The text consists of these lines, whatever follows it. -/
def Says (text : List Char) (lines : List Statement) : Prop :=
  ∀ ⦃behind items rest⦄, TakesRow (fun ahead => !ahead.isEmpty) statement behind items rest →
    TakesRow (fun ahead => !ahead.isEmpty) statement (text ++ behind) (lines ++ items) rest

theorem Says.nil : Says [] [] := fun _ _ _ h => h

theorem Says.append {text more : List Char} {lines others : List Statement}
    (htext : Says text lines) (hmore : Says more others) :
    Says (text ++ more) (lines ++ others) := by
  intro behind items rest h
  rw [List.append_assoc, List.append_assoc]
  exact htext (hmore h)

theorem Says.flatMap {α : Type} {items : List α} {write : α → List Char}
    {lines : α → List Statement} (h : ∀ a ∈ items, Says (write a) (lines a)) :
    Says (items.flatMap write) (items.flatMap lines) := by
  induction items with
  | nil => exact Says.nil
  | cons a items ih =>
    rw [List.forall_mem_cons] at h
    rw [List.flatMap_cons, List.flatMap_cons]
    exact h.1.append (ih h.2)

theorem Says.line {text : List Char} {line : Statement} (hne : text ≠ [])
    (h : ∀ behind, statement (text ++ behind) = some (line, behind)) : Says text [line] := by
  intro behind items rest hrow
  have hpos := List.length_pos_iff.mpr hne
  refine .cons ?_ (h behind) ?_ hrow
  · simp [hne]
  · rw [List.length_append]
    omega

theorem statements?_of_says {text : List Char} {lines : List Statement} (h : Says text lines) :
    statements? text = some lines := by
  have hend : TakesRow (fun ahead => !ahead.isEmpty) statement [] [] [] := .nil rfl
  have hrow := h hend
  rw [List.append_nil, List.append_nil] at hrow
  rw [statements?, hrow.repeatWhile]
  rfl

theorem says_pair {key : String} (hkey : IsWord key.toList) {written : List Char} {value : Value}
    (hvalue : Writes written value) :
    Says (writePair key written) [.pair ⟨⟨[], key⟩, value⟩] :=
  Says.line (by simp [writePair]) (statement_pair hkey hvalue)

theorem says_blank : Says ['\n'] [.blank] := Says.line (by simp) fun _ => rfl

/-! ## Sections -/

/-- The pairs that give the entries of a table. -/
def pairsOf (entries : Entries) : List Pair :=
  entries.map fun entry => ⟨⟨[], entry.1⟩, entry.2⟩

/-- The lines of a section: a blank one, the header and the pairs. -/
def Section.lines (part : Section) : List Statement :=
  .blank :: .header part.header :: part.pairs.map .pair

theorem sections_pairs (pairs : List Pair) (lines : List Statement) :
    sections (pairs.map .pair ++ lines) = (pairs ++ (sections lines).1, (sections lines).2) := by
  induction pairs with
  | nil => rfl
  | cons pair pairs ih => rw [List.map_cons, List.cons_append, sections, ih]; rfl

theorem sections_parts (parts : List Section) :
    sections (parts.flatMap Section.lines) = ([], parts) := by
  induction parts with
  | nil => rfl
  | cons part parts ih =>
    rw [List.flatMap_cons, Section.lines, List.cons_append, List.cons_append, sections, sections,
      sections_pairs, ih, List.append_nil]

/-- The pairs and the sections of a document. -/
theorem sections_document (pairs : List Pair) (parts : List Section) :
    sections (pairs.map .pair ++ parts.flatMap Section.lines) = (pairs, parts) := by
  rw [sections_pairs, sections_parts, List.append_nil]

/-- The text consists of the pairs of these entries. -/
def SaysEntries (text : List Char) (entries : Entries) : Prop :=
  Says text ((pairsOf entries).map .pair)

theorem SaysEntries.nil : SaysEntries [] [] := Says.nil

theorem SaysEntries.append {text more : List Char} {entries others : Entries}
    (htext : SaysEntries text entries) (hmore : SaysEntries more others) :
    SaysEntries (text ++ more) (entries ++ others) := by
  unfold SaysEntries pairsOf
  rw [List.map_append, List.map_append]
  exact Says.append htext hmore

theorem SaysEntries.flatMap {α : Type} {items : List α} {write : α → List Char}
    {entries : α → Entries} (h : ∀ a ∈ items, SaysEntries (write a) (entries a)) :
    SaysEntries (items.flatMap write) (items.flatMap entries) := by
  unfold SaysEntries pairsOf
  rw [List.map_flatMap, List.map_flatMap]
  exact Says.flatMap h

theorem saysEntries_pair {key : String} (hkey : IsWord key.toList) {written : List Char}
    {value : Value} (hvalue : Writes written value) :
    SaysEntries (writePair key written) [(key, value)] :=
  says_pair hkey hvalue

/-- A table: a blank line, its header and its pairs. -/
theorem says_table {first : List Char} {others : List (List Char)} (hfirst : IsWord first)
    (hothers : ∀ word ∈ others, IsWord word) (hfew : others.length + 1 < keyLimit)
    {key : String} (hkey : key.toList = first ++ dotted others) {text : List Char}
    {entries : Entries} (htext : SaysEntries text entries) :
    Says (writeHeader key ++ text)
      (Section.lines ⟨.table ⟨((first :: others).map String.ofList).dropLast,
        (others.map String.ofList).getLastD (String.ofList first)⟩, pairsOf entries⟩) := by
  have hheader : Says ('[' :: (key.toList ++ [']', '\n'])) [.header (.table
      ⟨((first :: others).map String.ofList).dropLast,
        (others.map String.ofList).getLastD (String.ofList first)⟩)] := by
    refine Says.line (List.cons_ne_nil _ _) fun behind => ?_
    rw [hkey]
    simpa using statement_table hfirst hothers hfew behind
  have hwritten : writeHeader key ++ text =
      ['\n'] ++ ('[' :: (key.toList ++ [']', '\n']) ++ text) := by
    simp [writeHeader]
  rw [hwritten]
  exact says_blank.append (hheader.append htext)

/-- One of several tables: a blank line, the header and the pairs. -/
theorem says_element {key : String} (hkey : IsWord key.toList) {text : List Char}
    {entries : Entries} (htext : SaysEntries text entries) :
    Says (writeElementHeader key ++ text)
      (Section.lines ⟨.element ⟨[], key⟩, pairsOf entries⟩) := by
  have hheader : Says ('[' :: '[' :: (key.toList ++ [']', ']', '\n']))
      [.header (.element ⟨[], key⟩)] := by
    refine Says.line (List.cons_ne_nil _ _) fun behind => ?_
    simpa using statement_element hkey behind
  have hwritten : writeElementHeader key ++ text =
      ['\n'] ++ ('[' :: '[' :: (key.toList ++ [']', ']', '\n']) ++ text) := by
    simp [writeElementHeader]
  rw [hwritten]
  exact says_blank.append (hheader.append htext)

/-! ## Tables -/

/-- The keys of a table. -/
def keysOf (entries : Entries) : List String := entries.map (·.1)

theorem lookup_eq_none {entries : Entries} {key : String} (h : key ∉ keysOf entries) :
    entries.lookup key = none := by
  rw [List.lookup_eq_none_iff]
  intro entry hentry
  have hne : key ≠ entry.1 := fun heq => h (List.mem_map.mpr ⟨entry, hentry, heq.symm⟩)
  simpa using hne

theorem lookup_append_singleton {entries : Entries} {key : String} (h : key ∉ keysOf entries)
    (value : Value) : (entries ++ [(key, value)]).lookup key = some value := by
  rw [List.lookup_append, lookup_eq_none h]
  simp

theorem replaceEntry_append_singleton {entries : Entries} {key : String}
    (h : key ∉ keysOf entries) (old new : Value) :
    Value.replaceEntry (entries ++ [(key, old)]) key new = entries ++ [(key, new)] := by
  have hsame : Value.replaceEntry entries key new = entries := by
    rw [Value.replaceEntry]
    refine (List.map_congr_left fun entry hentry => ?_).trans (List.map_id _)
    have hne : entry.1 ≠ key := fun heq => h (List.mem_map.mpr ⟨entry, hentry, heq⟩)
    rw [if_neg hne]
    rfl
  rw [Value.replaceEntry, List.map_append, ← Value.replaceEntry, hsame]
  simp

theorem insertPair_simple {entries : Entries} {key : String} (h : key ∉ keysOf entries)
    (value : Value) :
    Value.insertPair entries ⟨⟨[], key⟩, value⟩ = some (entries ++ [(key, value)]) := by
  simp [Value.insertPair, Value.editAt, Value.appendEntry, lookup_eq_none h]

/-- Pairs with different keys give a table with these entries. -/
theorem insertPairs_pairsOf {entries more : Entries} (h : (keysOf (entries ++ more)).Nodup) :
    Value.insertPairs entries (pairsOf more) = some (entries ++ more) := by
  induction more generalizing entries with
  | nil => simp [pairsOf, Value.insertPairs]
  | cons entry more ih =>
    have hsplit : entries ++ entry :: more = entries ++ [entry] ++ more := by simp
    have hfresh : entry.1 ∉ keysOf entries := by
      rw [keysOf, List.map_append, List.nodup_append] at h
      intro hmem
      exact h.2.2 _ hmem _ List.mem_cons_self rfl
    rw [hsplit] at h ⊢
    show (Value.insertPair entries ⟨⟨[], entry.1⟩, entry.2⟩ >>= fun entries =>
      Value.insertPairs entries (pairsOf more)) = _
    rw [insertPair_simple hfresh]
    exact ih h

/-- A table under its own header. -/
theorem addSection_table {root entries : Entries} {key : String} (hkey : key ∉ keysOf root)
    (h : (keysOf entries).Nodup) :
    Value.addSection root ⟨.table ⟨[], key⟩, pairsOf entries⟩ =
      some (root ++ [(key, .table .header entries)]) := by
  have hinsert : Value.insertPairs [] (pairsOf entries) = some entries := insertPairs_pairsOf h
  simp [Value.addSection, Value.editAt, lookup_eq_none hkey, hinsert]

/-- The list of tables under a header that comes again and again. -/
def tableList (key : String) : List Entries → Entries
  | [] => []
  | tables => [(key, .tables tables)]

/-- The next of several tables. -/
theorem addSection_element {root entries : Entries} {key : String} (hkey : key ∉ keysOf root)
    (tables : List Entries) (h : (keysOf entries).Nodup) :
    Value.addSection (root ++ tableList key tables) ⟨.element ⟨[], key⟩, pairsOf entries⟩ =
      some (root ++ tableList key (tables ++ [entries])) := by
  have hinsert : Value.insertPairs [] (pairsOf entries) = some entries := insertPairs_pairsOf h
  cases tables with
  | nil =>
    simp [Value.addSection, Value.editAt, tableList, lookup_eq_none hkey, hinsert]
  | cons table tables =>
    simp [Value.addSection, Value.editAt, tableList, lookup_append_singleton hkey, hinsert,
      replaceEntry_append_singleton hkey]

/-- A table inside the last of several tables. -/
theorem addSection_inner {root entries last : Entries} {key inner : String}
    (hkey : key ∉ keysOf root) (hinner : inner ∉ keysOf last) (tables : List Entries)
    (h : (keysOf entries).Nodup) :
    Value.addSection (root ++ tableList key (tables ++ [last]))
        ⟨.table ⟨[key], inner⟩, pairsOf entries⟩ =
      some (root ++ tableList key (tables ++ [last ++ [(inner, .table .header entries)]])) := by
  have hinsert : Value.insertPairs [] (pairsOf entries) = some entries := insertPairs_pairsOf h
  have hlist (last : Entries) : tableList key (tables ++ [last]) =
      [(key, .tables (tables ++ [last]))] := by
    cases tables <;> rfl
  rw [hlist, hlist]
  simp [Value.addSection, Value.editAt, lookup_append_singleton hkey, lookup_eq_none hinner,
    hinsert, replaceEntry_append_singleton hkey]

/-- Several tables under one header, each with a table inside it. -/
theorem foldlM_addSection_elements {α : Type} {own sub : α → Entries} {root : Entries}
    {key inner : String} (hkey : key ∉ keysOf root) {items : List α}
    (hown : ∀ a ∈ items, (keysOf (own a)).Nodup ∧ inner ∉ keysOf (own a))
    (hsub : ∀ a ∈ items, (keysOf (sub a)).Nodup) (tables : List Entries) :
    (items.flatMap fun a => [Section.mk (.element ⟨[], key⟩) (pairsOf (own a)),
        Section.mk (.table ⟨[key], inner⟩) (pairsOf (sub a))]).foldlM Value.addSection
        (root ++ tableList key tables) =
      some (root ++ tableList key (tables ++ items.map fun a =>
        own a ++ [(inner, .table .header (sub a))])) := by
  induction items generalizing tables with
  | nil => simp
  | cons a items ih =>
    rw [List.forall_mem_cons] at hown hsub
    obtain ⟨⟨hnodup, hinner⟩, hown⟩ := hown
    rw [List.flatMap_cons, List.cons_append, List.cons_append, List.nil_append, List.foldlM_cons,
      addSection_element hkey tables hnodup]
    simp only [Option.bind_eq_bind, Option.bind_some, List.foldlM_cons,
      addSection_inner hkey hinner tables hsub.1]
    rw [ih hown hsub.2, List.map_cons, List.append_assoc, List.singleton_append]

end Nomenclator.Toml
