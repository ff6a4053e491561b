import Nomenclator.Proofs.Scanning
import Nomenclator.Toml.Quotation
import Nomenclator.Toml.Writer

/-!
# Quoted texts are read back

Every text is read back from the form in which it is written, whatever it contains. Between
double quotes each character is written as one escape or stands for itself. Between triple
quotes, what closes the text may stand behind up to two quotes that belong to it; the writer
breaks up longer runs or takes another form, so that reading stops in the right place.

Results:
* `Scanner.TakesRow`: items taken one after the other, which is what repetition returns.
* `basicChar_escaped`: an escape is read as the character it was written for.
* `closedByThree_lines`: a text over several lines is read back if each step of its body is,
  up to at most two quotes at its end; `basicLines_step` and `literalLines_step` are these
  steps.
* `quotedText_writeText`: a text is read back from its form, up to what follows it.
-/

namespace Nomenclator

namespace Scanner

variable {α : Type} {more : List Char → Bool} {item : Scanner α}

/-- Items are taken one after the other for as long as there are more, up to the rest. -/
inductive TakesRow (more : List Char → Bool) (item : Scanner α) :
    List Char → List α → List Char → Prop where
  | nil {rest : List Char} : more rest = false → TakesRow more item rest [] rest
  | cons {text behind rest : List Char} {a : α} {items : List α} : more text = true →
    item text = some (a, behind) → behind.length < text.length →
    TakesRow more item behind items rest → TakesRow more item text (a :: items) rest

theorem TakesRow.repeatUpTo {text rest : List Char} {items : List α}
    (h : TakesRow more item text items rest) {most : Nat} (hmost : text.length ≤ most) :
    repeatUpTo more item most text = some (items, rest) := by
  induction h generalizing most with
  | nil hmore => cases most <;> simp [Scanner.repeatUpTo, hmore]
  | cons hmore hitem hshorter _ ih =>
    obtain ⟨most, rfl⟩ : ∃ n, most = n + 1 := ⟨most - 1, by omega⟩
    rw [Scanner.repeatUpTo, if_pos hmore, hitem]
    dsimp only
    rw [ih (by omega)]

theorem TakesRow.repeatWhile {text rest : List Char} {items : List α}
    (h : TakesRow more item text items rest) :
    repeatWhile more item text = some (items, rest) :=
  h.repeatUpTo le_rfl

/-- Items that are written one after the other are taken one after the other. -/
theorem TakesRow.ofPieces {piece : α → List Char} {rest : List Char} (hrest : more rest = false)
    {items : List α} (hmore : ∀ a ∈ items, ∀ behind, more (piece a ++ behind) = true)
    (hitem : ∀ a ∈ items, ∀ behind, item (piece a ++ behind) = some (a, behind))
    (hne : ∀ a ∈ items, piece a ≠ []) :
    TakesRow more item (items.flatMap piece ++ rest) items rest := by
  induction items with
  | nil => exact .nil hrest
  | cons a items ih =>
    rw [List.forall_mem_cons] at hmore hitem hne
    have hpos := List.length_pos_iff.mpr hne.1
    rw [List.flatMap_cons, List.append_assoc]
    refine .cons (hmore.1 _) (hitem.1 _) ?_ (ih hmore.2 hitem.2 hne.2)
    simp only [List.length_append]
    omega

end Scanner

namespace Toml

open Scanner (TakesRow)

/-! ## Characters -/

/-- What is neither written as an escape nor a line end may stand as it is. -/
theorem isPlain_of_not_needsEscape {c : Char} (h : needsEscape c = false) (hbreak : c ≠ '\n') :
    isPlain c = true := by
  unfold needsEscape at h
  unfold isPlain
  by_cases htab : c = '\t'
  · simp [htab]
  · simp [htab, hbreak] at h ⊢
    omega

theorem ne_carriageReturn {c : Char} (h : needsEscape c = false) : c ≠ '\r' := by
  rintro rfl
  revert h
  decide

/-- The four digits of a code are read as its character. -/
theorem codePoint_hexadecimalUpper {c : Char} (h : c.toNat < 128) (rest : List Char) :
    codePoint 4 (Text.hexadecimalUpper 4 c.toNat ++ rest) = some (c, rest) := by
  have hdigits : ∀ n < 128, (Text.hexadecimalUpper 4 n).length = 4 ∧
      ((Text.hexadecimalUpper 4 n).mapM Text.hexDigit?).map
        (fun digits => (digits.length, digits.foldl (16 * · + ·) 0)) = some (4, n) := by
    decide +kernel
  obtain ⟨hlength, hcode⟩ := hdigits c.toNat h
  obtain ⟨digits, hread, hvalue⟩ := Option.map_eq_some_iff.mp hcode
  obtain ⟨hwidth, hnumber⟩ := Prod.mk.injEq .. ▸ hvalue
  have hvalid : c.toNat.isValidChar := c.valid
  unfold codePoint
  rw [List.take_left' hlength, List.drop_left' hlength, hread]
  simp only [Option.bind_eq_bind, Option.bind_some, hnumber, hwidth, hvalid, and_self, if_true,
    Char.ofNat_toNat]

/-- A character that stands for itself is read as such. -/
theorem basicChar_plain {c : Char} (hslash : c ≠ '\\') (hplain : isPlain c = true)
    (rest : List Char) : basicChar (c :: rest) = some (c, rest) := by
  unfold basicChar
  split
  · next heq => exact absurd (List.cons.inj heq).1 hslash
  · rw [plainChar, if_pos hplain]

/-- An escape is read as the character it was written for. -/
theorem basicChar_escaped {c : Char} (hbreak : c ≠ '\n') (rest : List Char) :
    basicChar (escaped c ++ rest) = some (c, rest) := by
  unfold escaped
  split_ifs with hb ht hf hr hslash hneeds
  · subst hb; rfl
  · subst ht; rfl
  · subst hf; rfl
  · subst hr; rfl
  · subst hslash; rfl
  · refine codePoint_hexadecimalUpper ?_ rest
    simp [needsEscape] at hneeds
    omega
  · exact basicChar_plain hslash
      (isPlain_of_not_needsEscape (Bool.not_eq_true _ ▸ hneeds) hbreak) rest

theorem escaped_ne_nil (c : Char) : escaped c ≠ [] := by
  unfold escaped
  split_ifs <;> simp

/-- No escape starts with a quote or a line end. -/
theorem head_escaped {c : Char} (hquote : c ≠ '"') (hbreak : c ≠ '\n') :
    ∀ d ∈ (escaped c).head?, d ≠ '"' ∧ d ≠ '\n' ∧ d ≠ '\r' := by
  unfold escaped
  split_ifs with hb ht hf hr hslash hneeds <;> simp_all

/-! ## On one line -/

/-- A text between quotes that is written character by character, each as the scanner reads
    it and none starting with the closing quote. -/
theorem closedBy_flatMap {quote : Char} {char : Scanner Char} {piece : Char → List Char}
    {text : List Char}
    (hread : ∀ c ∈ text, ∀ behind, char (piece c ++ behind) = some (c, behind))
    (hhead : ∀ c ∈ text, piece c ≠ [] ∧ ∀ d ∈ (piece c).head?, d ≠ quote) (rest : List Char) :
    closedBy quote char (text.flatMap piece ++ quote :: rest) = some (text, rest) := by
  have hmore : ∀ c ∈ text, ∀ behind, (!Scanner.startsWith quote (piece c ++ behind)) = true := by
    intro c hc behind
    obtain ⟨hne, hfirst⟩ := hhead c hc
    cases hpiece : piece c with
    | nil => exact absurd hpiece hne
    | cons d piece =>
      rw [hpiece] at hfirst
      simpa using hfirst d rfl
  have hrow : TakesRow (fun ahead => !Scanner.startsWith quote ahead) char
      (text.flatMap piece ++ quote :: rest) text (quote :: rest) :=
    TakesRow.ofPieces (by simp) hmore hread fun c hc => (hhead c hc).1
  unfold closedBy
  rw [hrow.repeatWhile]
  simp [Scanner.expect]

/-- A character as it is written between double quotes. -/
def basicPiece (c : Char) : List Char :=
  if c = '"' then ['\\', '"'] else if c = '\n' then ['\\', 'n'] else escaped c

theorem basicChar_basicPiece (c : Char) (behind : List Char) :
    basicChar (basicPiece c ++ behind) = some (c, behind) := by
  unfold basicPiece
  split_ifs with hquote hbreak
  · subst hquote; rfl
  · subst hbreak; rfl
  · exact basicChar_escaped hbreak behind

theorem head_basicPiece (c : Char) :
    basicPiece c ≠ [] ∧ ∀ d ∈ (basicPiece c).head?, d ≠ '"' := by
  unfold basicPiece
  split_ifs with hquote hbreak
  · simp
  · simp
  · exact ⟨escaped_ne_nil c, fun d hd => (head_escaped hquote hbreak d hd).1⟩

/-- Any text is read back from between double quotes. -/
theorem closedBy_basicBody (text rest : List Char) :
    closedBy '"' basicChar (basicBody text ++ '"' :: rest) = some (text, rest) := by
  have hread : ∀ c ∈ text, ∀ behind, basicChar (basicPiece c ++ behind) = some (c, behind) :=
    fun c _ => basicChar_basicPiece c
  exact closedBy_flatMap hread (fun c _ => head_basicPiece c) rest

/-- A text without single quotes, line ends and codes is read back from between single
    quotes. -/
theorem closedBy_literal {text : List Char} (hquote : '\'' ∉ text)
    (hplain : ∀ c ∈ text, isPlain c = true) (rest : List Char) :
    closedBy '\'' plainChar (text ++ '\'' :: rest) = some (text, rest) := by
  have hread : ∀ c ∈ text, ∀ behind, plainChar ([c] ++ behind) = some (c, behind) := by
    intro c hc behind
    rw [List.singleton_append, plainChar, if_pos (hplain c hc)]
  have hhead : ∀ c ∈ text, [c] ≠ [] ∧ ∀ d ∈ [c].head?, d ≠ '\'' := by
    intro c hc
    refine ⟨List.cons_ne_nil c [], ?_⟩
    rintro d ⟨⟩ rfl
    exact hquote hc
  have hclosed := closedBy_flatMap hread hhead rest
  rwa [List.flatMap_singleton'] at hclosed

/-! ## Over several lines -/

/-- The closing quotes behind up to two quotes of the text. -/
theorem closing_replicate {quote : Char} {count : Nat} (hcount : count ≤ 2) {rest : List Char}
    (hrest : ∀ c ∈ rest.head?, c ≠ quote) :
    closing quote (List.replicate count quote ++ (List.replicate 3 quote ++ rest)) =
      some (List.replicate count quote, rest) := by
  have hquotes : ∀ c ∈ List.replicate (count + 3) quote, decide (c = quote) = true := by
    intro c hc
    simpa using (List.mem_replicate.mp hc).2
  have hstop : ∀ c ∈ rest.head?, decide (c = quote) = false := by simpa using hrest
  rw [← List.append_assoc, List.replicate_append_replicate]
  unfold closing
  rw [Scanner.takeWhile_run hquotes hstop, List.length_replicate, Nat.min_eq_left (by omega)]
  simp

/-- Three quotes ahead. -/
theorem startsWithThree_replicate (quote : Char) (count : Nat) (rest : List Char) :
    startsWithThree quote (List.replicate count quote ++ (List.replicate 3 quote ++ rest)) =
      true := by
  rw [← List.append_assoc, List.replicate_append_replicate]
  simp [List.replicate_succ, startsWithThree]

theorem newline?_cons_of_ne {c : Char} (hfeed : c ≠ '\n') (hreturn : c ≠ '\r')
    (rest : List Char) : newline? (c :: rest) = none := by
  unfold newline?
  split <;> simp_all

/-- Fewer than three quotes and then something else ahead. -/
theorem startsWithThree_interrupted {quote d : Char} {count : Nat} (hcount : count ≤ 2)
    (hd : d ≠ quote) (rest : List Char) :
    startsWithThree quote (List.replicate count quote ++ d :: rest) = false := by
  interval_cases count
  · cases rest with
    | nil => rfl
    | cons a rest => cases rest <;> simp [startsWithThree, hd]
  · cases rest <;> simp [startsWithThree, hd]
  · simp [List.replicate_succ, startsWithThree, hd]

/-- How a text over several lines is written from a state on, so that it can be read back:
    either only quotes are left that may stand before the closing ones, or one character is
    written as the scanner reads it and the closing quotes are not in sight. -/
def LinesStep {σ : Type} (quote : Char) (stretch : Scanner (List Char))
    (body : σ → List Char → List Char) (Valid : σ → List Char → Prop) (state : σ)
    (text : List Char) : Prop :=
  (∃ count ≤ 2, text = List.replicate count quote ∧ body state text = text) ∨
    ∃ c behind piece next, text = c :: behind ∧ Valid next behind ∧
      body state text = piece ++ body next behind ∧ piece ≠ [] ∧
      (∀ rest, stretch (piece ++ rest) = some ([c], rest)) ∧
      ∀ rest, startsWithThree quote (body state text ++ rest) = false

section Lines

variable {σ : Type} {quote : Char} {stretch : Scanner (List Char)}
  {body : σ → List Char → List Char} {Valid : σ → List Char → Prop}

/-- The stretches of such a text, up to the closing quotes and those right before them. -/
theorem lines_row (hstep : ∀ state text, Valid state text →
      LinesStep quote stretch body Valid state text)
    {state : σ} {text : List Char} (hvalid : Valid state text) (rest : List Char) :
    ∃ stretches count, count ≤ 2 ∧ text = stretches.flatten ++ List.replicate count quote ∧
      TakesRow (fun ahead => !startsWithThree quote ahead) stretch
        (body state text ++ (List.replicate 3 quote ++ rest)) stretches
        (List.replicate count quote ++ (List.replicate 3 quote ++ rest)) := by
  have hstop (count : Nat) : (!startsWithThree quote
      (List.replicate count quote ++ (List.replicate 3 quote ++ rest))) = false := by
    rw [startsWithThree_replicate]
    rfl
  -- Quotes at the end of the text are no stretch: they are taken with the closing ones.
  induction text generalizing state with
  | nil =>
    rcases hstep state [] hvalid with ⟨count, hcount, htext, hbody⟩ | ⟨_, _, _, _, ⟨⟩, _⟩
    refine ⟨[], count, hcount, htext, ?_⟩
    rw [hbody, htext]
    exact .nil (hstop count)
  | cons c text ih =>
    rcases hstep state (c :: text) hvalid with ⟨count, hcount, htext, hbody⟩ |
      ⟨_, _, piece, next, ⟨rfl, rfl⟩, hnext, hbody, hne, hread, hahead⟩
    · refine ⟨[], count, hcount, htext, ?_⟩
      rw [hbody, htext]
      exact .nil (hstop count)
    · obtain ⟨stretches, count, hcount, htext, hrow⟩ := ih hnext
      have hpos := List.length_pos_iff.mpr hne
      refine ⟨[c] :: stretches, count, hcount, by rw [htext]; simp, .cons ?_ ?_ ?_ hrow⟩
      · simp [hahead]
      · rw [hbody, List.append_assoc, hread]
      · rw [hbody]
        simp only [List.length_append]
        omega

/-- A line end behind the opening quotes is passed over; where there is none, the text does not
    start with one. -/
theorem newline?_leadingBreak {text written : List Char}
    (hhead : '\n' ∉ text → ∀ c ∈ written.head?, c ≠ '\n' ∧ c ≠ '\r') :
    (newline? (leadingBreak text ++ written)).getD (leadingBreak text ++ written) = written := by
  unfold leadingBreak
  split_ifs with hbreak
  · rfl
  · have hhead := hhead (by simpa using hbreak)
    cases written with
    | nil => rfl
    | cons c written =>
      obtain ⟨hfeed, hreturn⟩ := hhead c rfl
      rw [List.nil_append, newline?_cons_of_ne hfeed hreturn, Option.getD_none]

/-- Such a text is read back up to its closing quotes. -/
theorem closedByThree_lines (hstep : ∀ state text, Valid state text →
      LinesStep quote stretch body Valid state text)
    (state : σ) {text : List Char} (hvalid : Valid state text)
    (hhead : ∀ rest, '\n' ∉ text →
      ∀ c ∈ (body state text ++ (List.replicate 3 quote ++ rest)).head?, c ≠ '\n' ∧ c ≠ '\r')
    {rest : List Char} (hrest : ∀ c ∈ rest.head?, c ≠ quote) :
    closedByThree quote stretch
        (leadingBreak text ++ (body state text ++ (List.replicate 3 quote ++ rest))) =
      some (text, rest) := by
  obtain ⟨stretches, count, hcount, htext, hrow⟩ := lines_row hstep hvalid rest
  unfold closedByThree
  rw [newline?_leadingBreak (hhead rest)]
  dsimp only
  rw [hrow.repeatWhile]
  simp only [Option.bind_eq_bind, Option.bind_some, closing_replicate hcount hrest, ← htext]

end Lines

/-! ### Between triple double quotes -/

theorem lineOrChar_plain {c : Char} (hplain : isPlain c = true) (rest : List Char) :
    lineOrChar plainChar (c :: rest) = some ([c], rest) := by
  have hfeed : c ≠ '\n' := by rintro rfl; revert hplain; decide
  have hreturn : c ≠ '\r' := by rintro rfl; revert hplain; decide
  rw [lineOrChar, newline?_cons_of_ne hfeed hreturn, plainChar, if_pos hplain]
  rfl

theorem basicStretch_plain {c : Char} (hslash : c ≠ '\\') (hplain : isPlain c = true)
    (rest : List Char) : basicStretch (c :: rest) = some ([c], rest) := by
  unfold basicStretch
  split
  · next heq => exact absurd (List.cons.inj heq).1 hslash
  · exact lineOrChar_plain hplain rest

theorem basicStretch_escaped {c : Char} (hbreak : c ≠ '\n') (rest : List Char) :
    basicStretch (escaped c ++ rest) = some ([c], rest) := by
  unfold escaped
  split_ifs with hb ht hf hr hslash hneeds
  · subst hb; rfl
  · subst ht; rfl
  · subst hf; rfl
  · subst hr; rfl
  · subst hslash; rfl
  · have hcode : c.toNat < 128 := by
      simp [needsEscape] at hneeds
      omega
    show (codePoint 4 (Text.hexadecimalUpper 4 c.toNat ++ rest)).map _ = _
    rw [codePoint_hexadecimalUpper hcode]
    rfl
  · exact basicStretch_plain hslash
      (isPlain_of_not_needsEscape (Bool.not_eq_true _ ▸ hneeds) hbreak) rest

/-- Quotes that may all stand before the closing ones are written as they are. -/
theorem basicLinesBody_replicate {count quotes : Nat} (h : count + quotes ≤ 2) :
    basicLinesBody quotes (List.replicate count '"') = List.replicate count '"' := by
  induction count generalizing quotes with
  | zero => rfl
  | succ count ih =>
    rw [List.replicate_succ, basicLinesBody, if_pos rfl, if_neg (by omega), ih (by omega)]

/-- Elsewhere, at most two quotes are written in a row, counting those before. -/
theorem exists_basicLinesBody_eq {quotes : Nat} (hquotes : quotes ≤ 2) {text : List Char}
    (hmore : ¬∃ count, count + quotes ≤ 2 ∧ text = List.replicate count '"') :
    ∃ count d behind, count + quotes ≤ 2 ∧ d ≠ '"' ∧
      basicLinesBody quotes text = List.replicate count '"' ++ d :: behind := by
  induction text generalizing quotes with
  | nil => exact absurd ⟨0, by omega, rfl⟩ hmore
  | cons c text ih =>
    rw [basicLinesBody]
    split_ifs with hquote htwo hbreak
    · exact ⟨0, '\\', _, by omega, by decide, rfl⟩
    · have hmoreBehind : ¬∃ count, count + (quotes + 1) ≤ 2 ∧ text = List.replicate count '"' := by
        rintro ⟨count, hcount, rfl⟩
        exact hmore ⟨count + 1, by omega, by rw [hquote]; rfl⟩
      obtain ⟨count, d, behind, hcount, hd, hbody⟩ := ih (by omega) hmoreBehind
      exact ⟨count + 1, d, behind, by omega, hd, by rw [hbody]; rfl⟩
    · exact ⟨0, '\n', _, by omega, by decide, rfl⟩
    · cases hpiece : escaped c with
      | nil => exact absurd hpiece (escaped_ne_nil c)
      | cons d piece =>
        have hd := head_escaped hquote hbreak d (by rw [hpiece]; rfl)
        exact ⟨0, d, _, by omega, hd.1, rfl⟩

theorem basicLines_step (quotes : Nat) (text : List Char) (hquotes : quotes ≤ 2) :
    LinesStep '"' basicStretch basicLinesBody (fun quotes _ => quotes ≤ 2) quotes text := by
  by_cases hfew : ∃ count, count + quotes ≤ 2 ∧ text = List.replicate count '"'
  · obtain ⟨count, hcount, rfl⟩ := hfew
    exact .inl ⟨count, by omega, rfl, basicLinesBody_replicate hcount⟩
  · right
    have hahead (rest : List Char) :
        startsWithThree '"' (basicLinesBody quotes text ++ rest) = false := by
      obtain ⟨count, d, behind, hcount, hd, hbody⟩ := exists_basicLinesBody_eq hquotes hfew
      rw [hbody, List.append_assoc]
      exact startsWithThree_interrupted (by omega) hd _
    cases text with
    | nil => exact absurd ⟨0, by omega, rfl⟩ hfew
    | cons c text =>
      by_cases hquote : c = '"'
      · subst hquote
        by_cases htwo : quotes = 2
        · subst htwo
          exact ⟨'"', text, ['\\', '"'], 0, rfl, by omega, rfl, by simp, fun _ => rfl, hahead⟩
        · refine ⟨'"', text, ['"'], quotes + 1, rfl, by omega, ?_, by simp, fun _ => rfl, hahead⟩
          rw [basicLinesBody, if_pos rfl, if_neg htwo]
          rfl
      · by_cases hbreak : c = '\n'
        · subst hbreak
          exact ⟨'\n', text, ['\n'], 0, rfl, by omega, rfl, by simp, fun _ => rfl, hahead⟩
        · refine ⟨c, text, escaped c, 0, rfl, by omega, ?_, escaped_ne_nil c,
            basicStretch_escaped hbreak, hahead⟩
          rw [basicLinesBody, if_neg hquote, if_neg hbreak]

/-- Any text is read back from between triple double quotes. -/
theorem closedByThree_basicLines (text : List Char) {rest : List Char}
    (hrest : ∀ c ∈ rest.head?, c ≠ '"') :
    closedByThree '"' basicStretch
        (leadingBreak text ++ (basicLinesBody 0 text ++ (List.replicate 3 '"' ++ rest))) =
      some (text, rest) := by
  refine closedByThree_lines basicLines_step 0 (Nat.zero_le 2) ?_ hrest
  intro rest hbreak d hd
  cases text with
  | nil =>
    obtain rfl : '"' = d := by simpa [basicLinesBody, List.replicate_succ] using hd
    decide
  | cons c text =>
    rw [List.mem_cons, not_or] at hbreak
    rw [basicLinesBody] at hd
    by_cases hquote : c = '"'
    · obtain rfl : '"' = d := by simpa [hquote] using hd
      decide
    · rw [if_neg hquote, if_neg (Ne.symm hbreak.1), List.append_assoc,
        List.head?_append_of_ne_nil _ (escaped_ne_nil c)] at hd
      exact (head_escaped hquote (Ne.symm hbreak.1) d hd).2

/-! ### Between triple single quotes -/

/-- The quotes at the front of a text. -/
theorem exists_leading_quotes (quote : Char) (text : List Char) :
    ∃ count, text = List.replicate count quote ∨
      ∃ d behind, d ≠ quote ∧ text = List.replicate count quote ++ d :: behind := by
  induction text with
  | nil => exact ⟨0, .inl rfl⟩
  | cons c text ih =>
    by_cases hc : c = quote
    · subst hc
      obtain ⟨count, rfl | ⟨d, behind, hd, rfl⟩⟩ := ih
      · exact ⟨count + 1, .inl rfl⟩
      · exact ⟨count + 1, .inr ⟨d, behind, hd, rfl⟩⟩
    · exact ⟨0, .inr ⟨c, text, hc, rfl⟩⟩

theorem hasThree_cons {quote c : Char} {text : List Char} (h : hasThree quote (c :: text) = false) :
    hasThree quote text = false := by
  match text with
  | [] => rfl
  | [_] => rfl
  | a :: b :: text =>
    rw [hasThree, Bool.or_eq_false_iff] at h
    exact h.2

/-- Without three in a row there are at most two at the front. -/
theorem le_two_of_hasThree {quote : Char} {count : Nat} {behind : List Char}
    (h : hasThree quote (List.replicate count quote ++ behind) = false) : count ≤ 2 := by
  by_contra hcount
  obtain ⟨more, rfl⟩ : ∃ more, count = more + 3 := ⟨count - 3, by omega⟩
  simp [List.replicate_succ, hasThree] at h

theorem literalLines_step (text : List Char)
    (h : hasThree '\'' text = false ∧ ∀ c ∈ text, needsEscape c = false) :
    LinesStep '\'' (lineOrChar plainChar) (fun _ text => text)
      (fun (_ : Unit) text => hasThree '\'' text = false ∧ ∀ c ∈ text, needsEscape c = false)
      () text := by
  obtain ⟨hthree, hescape⟩ := h
  obtain ⟨count, rfl | ⟨d, behind, hd, heq⟩⟩ := exists_leading_quotes '\'' text
  · rw [← List.append_nil (List.replicate count _)] at hthree
    exact .inl ⟨count, le_two_of_hasThree hthree, rfl, rfl⟩
  · right
    have hcount : count ≤ 2 := le_two_of_hasThree (heq ▸ hthree)
    have hahead (rest : List Char) : startsWithThree '\'' (text ++ rest) = false := by
      rw [heq, List.append_assoc]
      exact startsWithThree_interrupted hcount hd _
    cases text with
    | nil => simp at heq
    | cons c text =>
      rw [List.forall_mem_cons] at hescape
      refine ⟨c, text, [c], (), rfl, ⟨hasThree_cons hthree, hescape.2⟩, rfl, by simp,
        fun rest => ?_, hahead⟩
      by_cases hbreak : c = '\n'
      · subst hbreak
        rfl
      · exact lineOrChar_plain (isPlain_of_not_needsEscape hescape.1 hbreak) rest

/-- A text without codes and without three single quotes in a row is read back from between
    triple single quotes. -/
theorem closedByThree_literalLines {text : List Char} (hthree : hasThree '\'' text = false)
    (hescape : ∀ c ∈ text, needsEscape c = false) {rest : List Char}
    (hrest : ∀ c ∈ rest.head?, c ≠ '\'') :
    closedByThree '\'' (lineOrChar plainChar)
        (leadingBreak text ++ (text ++ (List.replicate 3 '\'' ++ rest))) =
      some (text, rest) := by
  refine closedByThree_lines (fun _ => literalLines_step) () ⟨hthree, hescape⟩ ?_ hrest
  intro rest hbreak d hd
  cases text with
  | nil =>
    obtain rfl : '\'' = d := by simpa [List.replicate_succ] using hd
    decide
  | cons c text =>
    obtain rfl : c = d := by simpa using hd
    rw [List.mem_cons, not_or] at hbreak
    exact ⟨Ne.symm hbreak.1, ne_carriageReturn (hescape c List.mem_cons_self)⟩

/-! ## In any form -/

/-- The text does not go on with a quote. -/
def EndsQuoted (rest : List Char) : Prop := ∀ c ∈ rest.head?, c ≠ '"' ∧ c ≠ '\''

theorem quotedText_of_not_three {text : List Char} (hdouble : startsWithThree '"' text = false)
    (hsingle : startsWithThree '\'' text = false) : quotedText text = quotedLine text := by
  unfold quotedText
  split
  · simp [startsWithThree] at hdouble
  · simp [startsWithThree] at hsingle
  · rfl

namespace QuotedForm

/-- A form gives a text back, whatever follows but a quote. -/
def Suits (form : QuotedForm) (text : List Char) : Prop :=
  ∀ rest, EndsQuoted rest →
    quotedText (form.write text ++ rest) = some (String.ofList text, rest)

theorem basic_suits (text : List Char) : basic.Suits text := by
  intro rest hrest
  have hwritten : basic.write text ++ rest = '"' :: (basicBody text ++ '"' :: rest) := by
    simp [write]
  have hdouble : startsWithThree '"' ('"' :: (basicBody text ++ '"' :: rest)) = false := by
    cases text with
    | nil =>
      cases rest with
      | nil => rfl
      | cons c rest => exact startsWithThree_interrupted (le_refl 2) (hrest c rfl).1 rest
    | cons c text =>
      obtain ⟨hne, hhead⟩ := head_basicPiece c
      obtain ⟨d, piece, hpiece⟩ := List.exists_cons_of_ne_nil hne
      have hbody : basicBody (c :: text) = d :: (piece ++ basicBody text) := by
        show basicPiece c ++ basicBody text = _
        rw [hpiece]
        rfl
      rw [hbody]
      exact startsWithThree_interrupted one_le_two (hhead d (by rw [hpiece]; rfl)) _
  have hsingle : startsWithThree '\'' ('"' :: (basicBody text ++ '"' :: rest)) = false :=
    startsWithThree_interrupted (Nat.zero_le 2) (by decide) _
  rw [hwritten, quotedText_of_not_three hdouble hsingle, quotedLine, closedBy_basicBody]
  rfl

theorem literal_suits {text : List Char} (hne : text ≠ []) (hquote : '\'' ∉ text)
    (hplain : ∀ c ∈ text, isPlain c = true) : literal.Suits text := by
  intro rest _
  have hwritten : literal.write text ++ rest = '\'' :: (text ++ '\'' :: rest) := by
    simp [write]
  have hdouble : startsWithThree '"' ('\'' :: (text ++ '\'' :: rest)) = false :=
    startsWithThree_interrupted (Nat.zero_le 2) (by decide) _
  have hsingle : startsWithThree '\'' ('\'' :: (text ++ '\'' :: rest)) = false := by
    obtain ⟨c, behind, rfl⟩ := List.exists_cons_of_ne_nil hne
    have hc : c ≠ '\'' := fun heq => hquote (heq ▸ List.mem_cons_self)
    exact startsWithThree_interrupted one_le_two hc _
  rw [hwritten, quotedText_of_not_three hdouble hsingle, quotedLine,
    closedBy_literal hquote hplain]
  rfl

theorem basicLines_suits (text : List Char) : basicLines.Suits text := by
  intro rest hrest
  have hwritten : basicLines.write text ++ rest = '"' :: '"' :: '"' :: (leadingBreak text ++
      (basicLinesBody 0 text ++ (List.replicate 3 '"' ++ rest))) := by
    simp [write, List.replicate_succ]
  rw [hwritten, quotedText, closedByThree_basicLines text fun c hc => (hrest c hc).1]
  rfl

theorem literalLines_suits {text : List Char} (hthree : hasThree '\'' text = false)
    (hescape : ∀ c ∈ text, needsEscape c = false) : literalLines.Suits text := by
  intro rest hrest
  have hwritten : literalLines.write text ++ rest = '\'' :: '\'' :: '\'' :: (leadingBreak text ++
      (text ++ (List.replicate 3 '\'' ++ rest))) := by
    simp [write, List.replicate_succ]
  rw [hwritten, quotedText, closedByThree_literalLines hthree hescape fun c hc => (hrest c hc).2]
  rfl

/-- The form in which a text is written gives it back. -/
theorem of_suits (text : List Char) : (QuotedForm.of text).Suits text := by
  unfold QuotedForm.of
  dsimp only
  split_ifs with hbasic hliteral hlines hliteralLines hbreaks
  · exact basic_suits text
  · simp only [Bool.and_eq_true, Bool.not_eq_true', List.contains_eq_mem, decide_eq_false_iff_not,
      List.any_eq_false, Bool.not_eq_true] at hliteral hbasic
    obtain ⟨⟨hquote, hbreak⟩, hescape⟩ := hliteral
    have hplain : ∀ c ∈ text, isPlain c = true := fun c hc =>
      isPlain_of_not_needsEscape (hescape c hc) fun heq => hbreak (heq ▸ hc)
    have hne : text ≠ [] := by
      rintro rfl
      exact hbasic (by simp)
    exact literal_suits hne hquote hplain
  · exact basicLines_suits text
  · simp only [Bool.and_eq_true, Bool.not_eq_true', List.any_eq_false, Bool.not_eq_true]
      at hliteralLines
    exact literalLines_suits hliteralLines.2 hliteralLines.1
  · exact basicLines_suits text
  · exact basic_suits text

end QuotedForm

/-- A text is read back from the form in which it is written. -/
theorem quotedText_writeText (text : String) {rest : List Char} (hrest : EndsQuoted rest) :
    quotedText (writeText text ++ rest) = some (text, rest) := by
  have hread := QuotedForm.of_suits text.toList rest hrest
  rwa [String.ofList_toList] at hread

end Toml

end Nomenclator
