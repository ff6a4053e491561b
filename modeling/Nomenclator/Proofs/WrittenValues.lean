import Nomenclator.Proofs.QuotedTexts
import Nomenclator.Toml.Document

/-!
# Written values are read back

The values of a document, as they are written at the end of a line: texts, numbers, truth
values and arrays of texts.

Results:
* `Writes`: a value is read back from what is written, up to the end of the line.
* `writes_text`, `writes_number`, `writes_boolean`, `writes_texts`: so are the values of each
  kind.
-/

namespace Nomenclator.Toml

open Scanner (TakesRow)

/-- The value is read back from what is written if a line ends there. What is written does not
    start with a blank. -/
structure Writes (written : List Char) (value : Value) : Prop where
  start : ∃ c behind, written = c :: behind ∧ isBlank c = false
  read : ∀ behind, Toml.value (written ++ '\n' :: behind) = some (value, '\n' :: behind)

/-! ## Texts -/

theorem exists_writeText_eq (text : String) :
    ∃ c behind, writeText text = c :: behind ∧ (c = '"' ∨ c = '\'') := by
  unfold writeText
  cases QuotedForm.of text.toList with
  | basic => exact ⟨_, _, rfl, .inl rfl⟩
  | literal => exact ⟨_, _, rfl, .inr rfl⟩
  | basicLines => exact ⟨_, _, rfl, .inl rfl⟩
  | literalLines => exact ⟨_, _, rfl, .inr rfl⟩

theorem valueWithin_of_ne {c : Char} (hbracket : c ≠ '[') (hbrace : c ≠ '{') (depth : Nat)
    (rest : List Char) : valueWithin depth (c :: rest) = simpleValue (c :: rest) := by
  cases depth with
  | zero => rfl
  | succ depth =>
    unfold valueWithin
    split
    · next heq => exact absurd (List.cons.inj heq).1 hbracket
    · next heq => exact absurd (List.cons.inj heq).1 hbrace
    · rfl

theorem valueWithin_writeText (depth : Nat) (text : String) {rest : List Char}
    (hrest : EndsQuoted rest) :
    valueWithin depth (writeText text ++ rest) = some (.text text, rest) := by
  have hread := quotedText_writeText text hrest
  obtain ⟨c, behind, hwritten, hc⟩ := exists_writeText_eq text
  rw [hwritten, List.cons_append] at hread ⊢
  have hbracket : c ≠ '[' := by rcases hc with rfl | rfl <;> decide
  have hbrace : c ≠ '{' := by rcases hc with rfl | rfl <;> decide
  rw [valueWithin_of_ne hbracket hbrace, simpleValue, hread]

theorem endsQuoted_cons {c : Char} (hdouble : c ≠ '"') (hsingle : c ≠ '\'') (rest : List Char) :
    EndsQuoted (c :: rest) := by
  rintro d ⟨⟩
  exact ⟨hdouble, hsingle⟩

theorem writes_text (text : String) : Writes (writeText text) (.text text) where
  start := by
    obtain ⟨c, behind, hwritten, hc⟩ := exists_writeText_eq text
    exact ⟨c, behind, hwritten, by rcases hc with rfl | rfl <;> decide⟩
  read behind := valueWithin_writeText depthLimit text
    (endsQuoted_cons (by decide) (by decide) behind)

/-! ## Values without quotes -/

theorem quotedText_of_ne {c : Char} (hdouble : c ≠ '"') (hsingle : c ≠ '\'')
    (rest : List Char) : quotedText (c :: rest) = none := by
  unfold quotedText quotedLine
  split <;> simp_all

/-- A letter or digit starts neither a quoted text nor anything in brackets, and is no
    blank. -/
theorem ne_of_isAlphanum {c : Char} (h : c.isAlphanum = true) :
    c ≠ '"' ∧ c ≠ '\'' ∧ c ≠ '[' ∧ c ≠ '{' ∧ isBlank c = false := by
  refine ⟨?_, ?_, ?_, ?_, ?_⟩
  · rintro rfl; revert h; decide
  · rintro rfl; revert h; decide
  · rintro rfl; revert h; decide
  · rintro rfl; revert h; decide
  · by_contra hblank
    simp only [isBlank, Bool.not_eq_false, Bool.or_eq_true, decide_eq_true_eq] at hblank
    rcases hblank with rfl | rfl <;> (revert h; decide)

/-- A word of letters and digits is read as the value it stands for. -/
theorem writes_word {word : List Char} {value : Value} (hne : word ≠ [])
    (hword : ∀ c ∈ word, c.isAlphanum = true) (hvalue : scalarOf? word = some value) :
    Writes word value := by
  obtain ⟨c, behind, rfl⟩ := List.exists_cons_of_ne_nil hne
  obtain ⟨hdouble, hsingle, hbracket, hbrace, hblank⟩ :=
    ne_of_isAlphanum (hword c List.mem_cons_self)
  refine ⟨⟨c, behind, rfl, hblank⟩, fun rest => ?_⟩
  have hrun : Scanner.run1 isScalarChar (c :: behind ++ '\n' :: rest) =
      some (c :: behind, '\n' :: rest) := by
    refine Scanner.run1_eq_some_iff.mpr ⟨rfl, hne, fun d hd => ?_, ?_⟩
    · simp [isScalarChar, hword d hd]
    · rintro d ⟨⟩
      decide
  have htext : scalarText (c :: behind ++ '\n' :: rest) = some (c :: behind, '\n' :: rest) := by
    unfold scalarText
    rw [hrun]
    simp [startsTime]
  show valueWithin depthLimit _ = _
  rw [List.cons_append, valueWithin_of_ne hbracket hbrace, simpleValue,
    quotedText_of_ne hdouble hsingle, ← List.cons_append]
  simp only [scalar, htext, Option.bind_eq_bind, Option.bind_some, hvalue]

theorem writes_boolean (truth : Bool) : Writes (writeBoolean truth) (.boolean truth) := by
  have hletters : (writeBoolean truth).all Char.isAlphanum = true := by
    cases truth <;> decide
  have hword := List.all_eq_true.mp hletters
  cases truth with
  | false => exact writes_word (by decide) hword rfl
  | true => exact writes_word (by decide) hword rfl

/-! ## Numbers -/

/-- Digits without underscores are read one by one. -/
theorem digits?_eq_mapM {base : Nat} {text : List Char} (hne : text ≠ [])
    (hplain : '_' ∉ text) : digits? base text = text.mapM (digit? base) := by
  fun_induction digits? base text with
  | case1 => exact absurd rfl hne
  | case2 c => simp
  | case3 c rest ih => simp at hplain
  | case4 c rest hsingle hunderscore ih =>
    have hbehind : rest ≠ [] := fun heq => hsingle heq
    rw [List.mem_cons, not_or] at hplain
    rw [ih hbehind hplain.2]
    simp

theorem digit?_digitChar {d : Nat} (h : d < 10) : digit? 10 d.digitChar = some d := by
  revert d
  decide

/-- The digits of a number make it up. None starts with zero but the one of zero. -/
theorem exists_digits (n : Nat) :
    ∃ first behind, (Nat.toDigits 10 n).mapM (digit? 10) = some (first :: behind) ∧
      numberOf 10 (first :: behind) = n ∧ (first = 0 → behind = []) := by
  induction n using Nat.strong_induction_on with
  | h n ih =>
    by_cases hn : n < 10
    · refine ⟨n, [], ?_, by simp [numberOf], fun _ => rfl⟩
      rw [Nat.toDigits_of_lt_base hn]
      simp [digit?_digitChar hn]
    · obtain ⟨first, behind, hread, hvalue, hfirst⟩ := ih (n / 10) (by omega)
      have hlast : n % 10 < 10 := Nat.mod_lt n (by omega)
      refine ⟨first, behind ++ [n % 10], ?_, ?_, fun hzero => ?_⟩
      · rw [Nat.toDigits_of_base_le (by omega) (by omega), List.mapM_append, hread]
        simp [digit?_digitChar hlast]
      · have hsum : numberOf 10 (first :: (behind ++ [n % 10])) =
            10 * numberOf 10 (first :: behind) + n % 10 := by
          simp [numberOf]
        omega
      · -- Then all but the last digit would make up zero.
        rw [hzero, hfirst hzero] at hvalue
        simp [numberOf] at hvalue
        omega

theorem decimalDigits?_toDigits (n : Nat) :
    ∃ digits, decimalDigits? (Nat.toDigits 10 n) = some digits ∧ numberOf 10 digits = n := by
  obtain ⟨first, behind, hread, hvalue, hfirst⟩ := exists_digits n
  have hdigits : digits? 10 (Nat.toDigits 10 n) = some (first :: behind) := by
    rw [digits?_eq_mapM Nat.toDigits_ne_nil Nat.underscore_not_in_toDigits, hread]
  refine ⟨first :: behind, ?_, hvalue⟩
  unfold decimalDigits?
  rw [hdigits]
  split
  · next heq =>
    cases heq
    exact absurd (hfirst rfl) (List.cons_ne_nil _ _)
  · rfl

/-- The integer of a number's digits is the number. -/
theorem integer?_toDigits {n : Nat} (hn : n < 4294967296) :
    integer? (Nat.toDigits 10 n) = some (n : Int) := by
  have hdigit : ∀ c ∈ Nat.toDigits 10 n, c.isDigit = true := fun c hc =>
    Nat.isDigit_of_mem_toDigits (by omega) (by omega) hc
  obtain ⟨digits, hread, hvalue⟩ := decimalDigits?_toDigits n
  have hsign : cutSign (Nat.toDigits 10 n) = (false, Nat.toDigits 10 n) := by
    unfold cutSign
    split
    · next heq => exact absurd (hdigit '+' (by simp [heq])) (by decide)
    · next heq => exact absurd (hdigit '-' (by simp [heq])) (by decide)
    · rfl
  unfold integer?
  split
  · next heq => exact absurd (hdigit 'x' (by simp [heq])) (by decide)
  · next heq => exact absurd (hdigit 'o' (by simp [heq])) (by decide)
  · next heq => exact absurd (hdigit 'b' (by simp [heq])) (by decide)
  · simp only [hsign, hread, hvalue, Option.bind_eq_bind, Option.bind_some, Bool.false_eq_true,
      if_false, fitting?]
    rw [if_pos (by omega)]

theorem writes_number {n : Nat} (hn : n < 4294967296) : Writes (writeNumber n) (.integer n) := by
  have hdigit : ∀ c ∈ Nat.toDigits 10 n, c.isDigit = true := fun c hc =>
    Nat.isDigit_of_mem_toDigits (by omega) (by omega) hc
  refine writes_word Nat.toDigits_ne_nil (fun c hc => ?_) ?_
  · simp [Char.isAlphanum, hdigit c hc]
  · unfold scalarOf? writeNumber
    rw [if_neg, if_neg, integer?_toDigits hn]
    · intro heq
      exact absurd (hdigit 'f' (by simp [heq])) (by decide)
    · intro heq
      exact absurd (hdigit 't' (by simp [heq])) (by decide)

/-! ## Arrays of texts -/

theorem skipLines?_of_ne {c : Char} (hfeed : c ≠ '\n') (hreturn : c ≠ '\r')
    (hblank : isBlank c = false) (hcomment : c ≠ '#') (rest : List Char) :
    skipLines? false (c :: rest) = some (c :: rest) := by
  unfold skipLines?
  split <;> simp_all

theorem skipLines?_writeText (text : String) (rest : List Char) :
    skipLines? false (writeText text ++ rest) = some (writeText text ++ rest) := by
  obtain ⟨c, behind, hwritten, hc⟩ := exists_writeText_eq text
  rw [hwritten, List.cons_append]
  apply skipLines?_of_ne <;> (rcases hc with rfl | rfl <;> decide)

/-- The texts of an array with what parts them. -/
def writeElements (texts : List String) : List Char :=
  ((texts.map writeText).intersperse [',', ' ']).flatten

theorem writeElements_singleton (text : String) : writeElements [text] = writeText text := by
  simp [writeElements]

theorem writeElements_cons_cons (text next : String) (texts : List String) :
    writeElements (text :: next :: texts) =
      writeText text ++ ',' :: ' ' :: writeElements (next :: texts) := by
  simp [writeElements]

/-- The texts of an array start with the first of them. -/
theorem exists_writeElements_eq (text : String) (texts : List String) :
    ∃ behind, writeElements (text :: texts) = writeText text ++ behind := by
  cases texts with
  | nil => exact ⟨[], by rw [writeElements_singleton, List.append_nil]⟩
  | cons next texts => exact ⟨_, writeElements_cons_cons text next texts⟩

section Elements

variable {depth : Nat} {text : String} {rest : List Char}

theorem arrayElement_last :
    arrayElement (valueWithin depth) (writeText text ++ ']' :: rest) =
      some (.text text, ']' :: rest) := by
  have hread := valueWithin_writeText depth text
    (endsQuoted_cons (by decide) (by decide) rest : EndsQuoted (']' :: rest))
  unfold arrayElement
  rw [hread]
  rfl

theorem arrayElement_next (next : String) (texts : List String) :
    arrayElement (valueWithin depth)
        (writeText text ++ ',' :: ' ' :: (writeElements (next :: texts) ++ rest)) =
      some (.text text, writeElements (next :: texts) ++ rest) := by
  have hread := valueWithin_writeText depth text
    (endsQuoted_cons (by decide) (by decide) _ :
      EndsQuoted (',' :: ' ' :: (writeElements (next :: texts) ++ rest)))
  have hskip : skipLines? false (' ' :: (writeElements (next :: texts) ++ rest)) =
      some (writeElements (next :: texts) ++ rest) := by
    obtain ⟨behind, hwritten⟩ := exists_writeElements_eq next texts
    rw [hwritten, List.append_assoc]
    exact skipLines?_writeText next (behind ++ rest)
  unfold arrayElement
  rw [hread]
  show (skipLines? false (' ' :: (writeElements (next :: texts) ++ rest)) >>= fun behind =>
    some (Value.text text, behind)) = _
  rw [hskip]
  rfl

theorem not_startsWith_writeElements (texts : List String) :
    (!Scanner.startsWith ']' (writeElements (text :: texts) ++ rest)) = true := by
  obtain ⟨behind, hwritten⟩ := exists_writeElements_eq text texts
  obtain ⟨c, more, hc, hquote⟩ := exists_writeText_eq text
  rw [hwritten, hc]
  rcases hquote with rfl | rfl <;> rfl

end Elements

theorem elements_row (depth : Nat) (texts : List String) (rest : List Char) :
    TakesRow (fun ahead => !Scanner.startsWith ']' ahead) (arrayElement (valueWithin depth))
      (writeElements texts ++ ']' :: rest) (texts.map .text) (']' :: rest) := by
  induction texts with
  | nil => exact .nil rfl
  | cons text texts ih =>
    obtain ⟨c, more, hwritten, -⟩ := exists_writeText_eq text
    have hpos : 0 < (writeText text).length := by simp [hwritten]
    cases texts with
    | nil =>
      refine .cons (not_startsWith_writeElements []) ?_ ?_ ih
      · rw [writeElements_singleton]
        exact arrayElement_last
      · rw [writeElements_singleton]
        simp [writeElements]
        omega
    | cons next texts =>
      refine .cons (not_startsWith_writeElements (next :: texts)) ?_ ?_ ih
      · rw [writeElements_cons_cons, List.append_assoc]
        exact arrayElement_next next texts
      · rw [writeElements_cons_cons]
        simp only [List.length_append, List.length_cons]
        omega

theorem writes_texts (texts : List String) :
    Writes (writeTexts texts) (.array (texts.map .text)) where
  start := ⟨'[', _, rfl, by decide⟩
  read behind := by
    have hwritten : writeTexts texts ++ '\n' :: behind =
        '[' :: (writeElements texts ++ ']' :: '\n' :: behind) := by
      simp [writeTexts, writeElements]
    have hskip : skipLines? false (writeElements texts ++ ']' :: '\n' :: behind) =
        some (writeElements texts ++ ']' :: '\n' :: behind) := by
      cases texts with
      | nil => rfl
      | cons text texts =>
        obtain ⟨more, hfirst⟩ := exists_writeElements_eq text texts
        rw [hfirst, List.append_assoc]
        exact skipLines?_writeText text _
    rw [hwritten]
    show arrayOf (valueWithin 78) _ = _
    unfold arrayOf
    rw [hskip]
    simp only [Option.bind_eq_bind, Option.bind_some, (elements_row 78 texts _).repeatWhile]
    rfl

end Nomenclator.Toml
