import Mathlib.Tactic
import Nomenclator.Settings.Basic

/-!
# Formats of class names

A format is a row of pieces: characters, places for the number of a class and places for its
old name. Numbers are filled in before old names, but this makes no difference, because a
number brings no new place for an old name.

A name tells which number is in it if the places for numbers can be told from those for old
names. Old names may hold digits, so no digit in the format helps. Any other character does if
it divides the places unevenly: numbers of different lengths would then move it.

Results:
* `formatName_toList`: filling in a format fills in its pieces.
* `countP_flatMap_fill`: how often characters of a kind occur in a name.
* `number_eq_of_fill_eq`: the number in a name is unique if the format separates it.
* `fill_ones_eq`: without digits in the format this is necessary; two numbers that consist of
  ones can be exchanged for old names that do.
-/

namespace Nomenclator

/-! ## Replacing -/

namespace Text

variable {c : Char} {old : List Char} (new : List Char)

/-- What an occurrence covers is passed over. -/
theorem replaceFrom_covered (old covered rest : List Char) :
    replaceFrom old new covered.length (covered ++ rest) = replaceFrom old new 0 rest := by
  induction covered with
  | nil => rfl
  | cons c covered ih => exact ih

theorem replaceFrom_occurrence (c : Char) (old rest : List Char) :
    replaceFrom (c :: old) new 0 (c :: old ++ rest) =
      new ++ replaceFrom (c :: old) new 0 rest := by
  have hprefix : (c :: old).isPrefixOf (c :: (old ++ rest)) = true := by simp
  rw [List.cons_append, replaceFrom, if_pos hprefix]
  exact congrArg (new ++ ·) (replaceFrom_covered new (c :: old) old rest)

theorem replaceFrom_other {rest : List Char} (h : ¬old <+: c :: rest) :
    replaceFrom old new 0 (c :: rest) = c :: replaceFrom old new 0 rest := by
  rw [replaceFrom, if_neg (by rwa [List.isPrefixOf_iff_prefix])]

/-- Nothing is replaced where no occurrence starts. -/
theorem replaceFrom_append_of_not_mem {front : List Char} (h : c ∉ front) (rest : List Char) :
    replaceFrom (c :: old) new 0 (front ++ rest) = front ++ replaceFrom (c :: old) new 0 rest := by
  induction front with
  | nil => rfl
  | cons d front ih =>
    rw [List.mem_cons, not_or] at h
    rw [List.cons_append, replaceFrom_other, ih h.2]
    · rfl
    · rintro ⟨_, heq⟩
      exact h.1 (List.cons.inj heq).1

end Text

/-! ## Pieces -/

/-- A piece of a format. -/
inductive FormatPiece where
  /-- A character that stands for itself. -/
  | char (c : Char)
  /-- A place for the number of the class. -/
  | number
  /-- A place for the old name of the class. -/
  | oldName
  deriving DecidableEq

namespace FormatPiece

/-- The pieces of a format. -/
def ofChars : List Char → List FormatPiece
  | [] => []
  | '{' :: 'i' :: 'd' :: '}' :: rest => number :: ofChars rest
  | '{' :: 'o' :: 'b' :: 'f' :: '}' :: rest => oldName :: ofChars rest
  | c :: rest => char c :: ofChars rest

theorem number_mem_ofChars {text : List Char}
    (h : Text.occursIn ['{', 'i', 'd', '}'] text = true) : number ∈ ofChars text := by
  fun_induction ofChars text with
  | case1 => cases h
  | case2 rest ih => exact List.mem_cons_self
  | case3 rest ih => exact List.mem_cons_of_mem _ (ih (by simpa [Text.occursIn] using h))
  | case4 c rest hnumber _ ih =>
    rw [Text.occursIn, Bool.or_eq_true, List.isPrefixOf_iff_prefix] at h
    rcases h with ⟨behind, heq⟩ | h
    · obtain ⟨rfl, rfl⟩ := List.cons.inj heq
      exact absurd rfl (hnumber behind rfl)
    · exact List.mem_cons_of_mem _ (ih h)

/-- What stands for a piece in a name. -/
def fill (x s : List Char) : FormatPiece → List Char
  | char c => [c]
  | number => x
  | oldName => s

/-- The place for an old name as a format shows it. -/
def oldNamePlace : List Char := ['{', 'o', 'b', 'f', '}']

theorem replaceFrom_number (x text : List Char) :
    Text.replaceFrom ['{', 'i', 'd', '}'] x 0 text =
      (ofChars text).flatMap (fill x oldNamePlace) := by
  fun_induction ofChars text with
  | case1 => rfl
  | case2 rest ih =>
    rw [List.flatMap_cons, ← ih]
    exact Text.replaceFrom_occurrence x '{' ['i', 'd', '}'] rest
  | case3 rest ih =>
    rw [List.flatMap_cons, ← ih]
    rfl
  | case4 c rest hnumber _ ih =>
    rw [List.flatMap_cons, ← ih, Text.replaceFrom_other]
    · rfl
    · rintro ⟨behind, heq⟩
      obtain ⟨rfl, rfl⟩ := List.cons.inj heq
      exact hnumber behind rfl rfl

/-- A word that neither starts a place nor has a digit of the number is found in a filled-in
    format only where it stands in the format itself. -/
theorem isPrefix_of_isPrefix_fill {x word text : List Char} (hx : x ≠ [])
    (hword : ∀ c ∈ word, c ≠ '{' ∧ c ∉ x)
    (h : word <+: (ofChars text).flatMap (fill x oldNamePlace)) : word <+: text := by
  fun_induction ofChars text generalizing word with
  | case1 => exact h
  | case2 rest ih =>
    cases word with
    | nil => exact List.nil_prefix
    | cons c word =>
      obtain ⟨d, digits, rfl⟩ := List.exists_cons_of_ne_nil hx
      have hc : c = d := (List.cons_prefix_cons.mp h).1
      exact absurd (hc ▸ List.mem_cons_self) (hword c List.mem_cons_self).2
  | case3 rest ih =>
    cases word with
    | nil => exact List.nil_prefix
    | cons c word =>
      have hc : c = '{' := (List.cons_prefix_cons.mp h).1
      exact absurd hc (hword c List.mem_cons_self).1
  | case4 d rest _ _ ih =>
    cases word with
    | nil => exact List.nil_prefix
    | cons c word =>
      obtain ⟨rfl, hbehind⟩ := List.cons_prefix_cons.mp h
      exact List.cons_prefix_cons.mpr
        ⟨rfl, ih (fun e he => hword e (List.mem_cons_of_mem _ he)) hbehind⟩

theorem replaceFrom_oldName {x : List Char} (hx : x ≠ []) (hdigits : ∀ c ∈ x, c.isDigit = true)
    (s text : List Char) :
    Text.replaceFrom oldNamePlace s 0 ((ofChars text).flatMap (fill x oldNamePlace)) =
      (ofChars text).flatMap (fill x s) := by
  have hplain : ∀ c ∈ oldNamePlace, c.isDigit = false := by simp [oldNamePlace]
  have hnot : ∀ c ∈ oldNamePlace, c ∉ x := by
    intro c hc hmem
    have hdigit := hdigits c hmem
    rw [hplain c hc] at hdigit
    cases hdigit
  fun_induction ofChars text with
  | case1 => rfl
  | case2 rest ih =>
    rw [List.flatMap_cons, List.flatMap_cons, ← ih]
    exact Text.replaceFrom_append_of_not_mem s (hnot '{' (by decide)) _
  | case3 rest ih =>
    rw [List.flatMap_cons, List.flatMap_cons, ← ih]
    exact Text.replaceFrom_occurrence s '{' ['o', 'b', 'f', '}'] _
  | case4 c rest _ hold ih =>
    rw [List.flatMap_cons, List.flatMap_cons, ← ih]
    refine Text.replaceFrom_other s fun hprefix => ?_
    obtain ⟨rfl, hbehind⟩ := List.cons_prefix_cons.mp hprefix
    have hopen : ∀ c ∈ ['o', 'b', 'f', '}'], c ≠ '{' := by simp
    obtain ⟨behind, rfl⟩ := isPrefix_of_isPrefix_fill hx
      (fun c hc => ⟨hopen c hc, hnot c (List.mem_cons_of_mem _ hc)⟩) hbehind
    exact hold behind rfl rfl

/-! ## What a name tells -/

section Filled

variable {pieces : List FormatPiece} {x y s t : List Char}

/-- The characters of a format that stand for themselves. -/
def ownChars (pieces : List FormatPiece) : List Char :=
  pieces.filterMap fun
    | char c => some c
    | _ => none

/-- Characters of a kind come from the numbers, from the old names and from the format. -/
theorem countP_flatMap_fill (p : Char → Bool) (pieces : List FormatPiece) (x s : List Char) :
    (pieces.flatMap (fill x s)).countP p =
      pieces.count number * x.countP p + pieces.count oldName * s.countP p +
        (ownChars pieces).countP p := by
  induction pieces with
  | nil => simp [ownChars]
  | cons piece pieces ih =>
    rw [List.flatMap_cons, List.countP_append, ih]
    cases piece with
    | char c => simp [fill, ownChars, List.countP_cons]; omega
    | number => simp [fill, ownChars]; ring
    | oldName => simp [fill, ownChars]; ring

theorem length_flatMap_fill (pieces : List FormatPiece) (x s : List Char) :
    (pieces.flatMap (fill x s)).length =
      pieces.count number * x.length + pieces.count oldName * s.length +
        (ownChars pieces).length := by
  simpa using countP_flatMap_fill (fun _ => true) pieces x s

/-- Numbers of the same length are in the same places. -/
theorem eq_of_length_eq (hnumber : number ∈ pieces)
    (h : pieces.flatMap (fill x s) = pieces.flatMap (fill y t)) (hlength : x.length = y.length) :
    x = y := by
  have htotal := congrArg List.length h
  rw [length_flatMap_fill, length_flatMap_fill, hlength] at htotal
  obtain ⟨before, after, rfl⟩ := List.append_of_mem hnumber
  have hbefore : (before.flatMap (fill x s)).length = (before.flatMap (fill y t)).length := by
    rw [length_flatMap_fill, length_flatMap_fill, hlength]
    rcases Nat.eq_zero_or_pos (before.count oldName) with hnone | hsome
    · rw [hnone, Nat.zero_mul, Nat.zero_mul]
    · have hold : 0 < (before ++ number :: after).count oldName := by
        rw [List.count_append]
        omega
      have hsame : s.length = t.length := Nat.eq_of_mul_eq_mul_left hold (by omega)
      rw [hsame]
  rw [List.flatMap_append, List.flatMap_append, List.flatMap_cons, List.flatMap_cons] at h
  obtain ⟨-, hbehind⟩ := List.append_inj h hbefore
  exact (List.append_inj hbehind hlength).1

/-- In equal texts a character of some kind that stands behind as many of them stands in the same
    place. -/
theorem length_eq_of_countP_eq {p : Char → Bool} {c : Char} (hc : p c = true)
    {u v u' v' : List Char} (hcount : u.countP p = u'.countP p)
    (h : u ++ c :: v = u' ++ c :: v') : u.length = u'.length := by
  have hno (w rest rest' : List Char) (hw : (w ++ c :: rest) = c :: rest')
      (hzero : w.countP p = 0) : w = [] := by
    cases w with
    | nil => rfl
    | cons d w =>
      obtain ⟨rfl, -⟩ := List.cons.inj hw
      simp [hc] at hzero
  rcases List.append_eq_append_iff.mp h with ⟨w, rfl, hw⟩ | ⟨w, rfl, hw⟩
  · rw [List.countP_append] at hcount
    rw [hno w _ _ hw.symm (by omega), List.append_nil]
  · rw [List.countP_append] at hcount
    rw [hno w _ _ hw.symm (by omega), List.append_nil]

/-- The pieces hold no old name, or a character that is no digit, before which the places for
    numbers and for old names are not in the same proportion as in the whole. -/
def Separate (pieces : List FormatPiece) : Prop :=
  oldName ∉ pieces ∨ ∃ before mark after, pieces = before ++ char mark :: after ∧
    mark.isDigit = false ∧
      before.count number * pieces.count oldName ≠ before.count oldName * pieces.count number

/-- A character that is no digit stands behind as many others in both names, so it does not
    move. Unless it keeps the proportion, the numbers have the same length. -/
theorem length_eq_of_mark (hx : ∀ c ∈ x, c.isDigit = true) (hy : ∀ c ∈ y, c.isDigit = true)
    {before after : List FormatPiece} {mark : Char}
    (hpieces : pieces = before ++ char mark :: after) (hmark : mark.isDigit = false)
    (hold : oldName ∈ pieces) (hproportion : before.count number * pieces.count oldName ≠
      before.count oldName * pieces.count number)
    (h : pieces.flatMap (fill x s) = pieces.flatMap (fill y t)) : x.length = y.length := by
  let other : Char → Bool := fun c => !c.isDigit
  have hnone {digits : List Char} (hdigits : ∀ c ∈ digits, c.isDigit = true) :
      digits.countP other = 0 := by
    rw [List.countP_eq_zero]
    intro c hc
    simp [other, hdigits c hc]
  have hothers : s.countP other = t.countP other := by
    have hcount := congrArg (List.countP other) h
    rw [countP_flatMap_fill, countP_flatMap_fill, hnone hx, hnone hy] at hcount
    exact Nat.eq_of_mul_eq_mul_left (List.count_pos_iff.mpr hold) (by omega)
  have hbefore : (before.flatMap (fill x s)).length = (before.flatMap (fill y t)).length := by
    rw [hpieces, List.flatMap_append, List.flatMap_append, List.flatMap_cons,
      List.flatMap_cons] at h
    refine length_eq_of_countP_eq (p := other) (by simp [other, hmark]) ?_ h
    rw [countP_flatMap_fill, countP_flatMap_fill, hnone hx, hnone hy, hothers]
  have htotal := congrArg List.length h
  rw [length_flatMap_fill, length_flatMap_fill] at hbefore htotal
  zify at hbefore htotal hproportion ⊢
  refine sub_eq_zero.mp ((mul_eq_zero.mp ?_).resolve_left (sub_ne_zero.mpr hproportion))
  linear_combination (pieces.count oldName : ℤ) * hbefore - (before.count oldName : ℤ) * htotal

/-- The number in a name is unique if the format separates it from the old names. -/
theorem number_eq_of_fill_eq (hnumber : number ∈ pieces) (hseparate : Separate pieces)
    (hx : ∀ c ∈ x, c.isDigit = true) (hy : ∀ c ∈ y, c.isDigit = true)
    (h : pieces.flatMap (fill x s) = pieces.flatMap (fill y t)) : x = y := by
  refine eq_of_length_eq hnumber h ?_
  by_cases hold : oldName ∈ pieces
  · obtain ⟨before, mark, after, hpieces, hmark, hproportion⟩ :=
      hseparate.resolve_left (not_not.mpr hold)
    exact length_eq_of_mark hx hy hpieces hmark hold hproportion h
  · have htotal := congrArg List.length h
    rw [length_flatMap_fill, length_flatMap_fill, List.count_eq_zero_of_not_mem hold] at htotal
    exact Nat.eq_of_mul_eq_mul_left (List.count_pos_iff.mpr hnumber) (by omega)

end Filled

/-! ## Formats that do not separate -/

/-- A text that consists of ones. -/
def ones (n : Nat) : List Char := List.replicate n '1'

theorem ones_append_ones (a b : Nat) : ones a ++ ones b = ones (a + b) :=
  List.replicate_append_replicate

/-- Let every character of the format keep the proportion `m` to `k`. Then `k` more ones in every
    number make up for `m` more ones in every old name: a name that is filled in up to some piece
    in the one way differs from the other way only in the ones at its end. -/
theorem fill_ones_append {before : List FormatPiece} {m k : Nat}
    (h : ∀ front mark after, before = front ++ char mark :: after →
      front.count number * k = front.count oldName * m) :
    before.flatMap (fill (ones 1) (ones (m + 1))) ++ ones (before.count number * k) =
      before.flatMap (fill (ones (k + 1)) (ones 1)) ++ ones (before.count oldName * m) := by
  induction before using List.reverseRecOn with
  | nil => simp
  | append_singleton before piece ih =>
    have hbefore := ih fun front mark after hfront =>
      h front mark (after ++ [piece]) (by rw [hfront]; simp)
    rw [List.flatMap_append, List.flatMap_append, List.flatMap_singleton, List.flatMap_singleton,
      List.count_append, List.count_append]
    cases piece with
    | char c =>
      have hkept := h before c [] rfl
      rw [hkept] at hbefore
      rw [List.append_cancel_right hbefore]
      simp [fill, hkept]
    | number =>
      have hleft : ones 1 ++ ones ((before.count number + 1) * k) =
          ones (before.count number * k) ++ ones (k + 1) := by
        rw [ones_append_ones, ones_append_ones]
        congr 1
        ring
      have hright : ones (k + 1) ++ ones (before.count oldName * m) =
          ones (before.count oldName * m) ++ ones (k + 1) := by
        rw [ones_append_ones, ones_append_ones, Nat.add_comm]
      simp only [fill, List.count_singleton_self, List.append_assoc]
      rw [hleft, ← List.append_assoc, hbefore]
      simp [hright]
    | oldName =>
      have hleft : ones (m + 1) ++ ones (before.count number * k) =
          ones (before.count number * k) ++ ones (m + 1) := by
        rw [ones_append_ones, ones_append_ones, Nat.add_comm]
      have hright : ones 1 ++ ones ((before.count oldName + 1) * m) =
          ones (before.count oldName * m) ++ ones (m + 1) := by
        rw [ones_append_ones, ones_append_ones]
        congr 1
        ring
      simp only [fill, List.count_singleton_self, List.append_assoc]
      rw [hright]
      simp [hleft, ← List.append_assoc, hbefore]

/-- Without digits of its own, a format that does not separate has a name with two numbers. -/
theorem fill_ones_eq {pieces : List FormatPiece}
    (hdigits : ∀ c ∈ ownChars pieces, c.isDigit = false) (h : ¬Separate pieces) :
    pieces.flatMap (fill (ones 1) (ones (pieces.count number + 1))) =
      pieces.flatMap (fill (ones (pieces.count oldName + 1)) (ones 1)) := by
  obtain ⟨-, hmarks⟩ := not_or.mp h
  have hkept : ∀ front mark after, pieces = front ++ char mark :: after →
      front.count number * pieces.count oldName = front.count oldName * pieces.count number := by
    intro front mark after hpieces
    by_contra hproportion
    refine hmarks ⟨front, mark, after, hpieces, hdigits mark ?_, hproportion⟩
    rw [hpieces]
    simp [ownChars]
  have hends := fill_ones_append hkept
  rw [Nat.mul_comm] at hends
  exact List.append_cancel_right hends

end FormatPiece

/-! ## Formats -/

namespace ClassNaming

/-- The pieces of the format. -/
def pieces (naming : ClassNaming) : List FormatPiece := FormatPiece.ofChars naming.format.toList

/-- The number can be told from the old names in a name. -/
def Separates (naming : ClassNaming) : Prop := FormatPiece.Separate naming.pieces

theorem isDigit_toString {id : Nat} : ∀ c ∈ (toString id).toList, c.isDigit = true := by
  intro c hc
  rw [Nat.toString_eq_repr, Nat.toList_repr] at hc
  exact Nat.isDigit_of_mem_toDigits (by omega) (by omega) hc

theorem toString_ne_nil (id : Nat) : (toString id).toList ≠ [] := by
  rw [Nat.toString_eq_repr, Nat.toList_repr]
  exact Nat.toDigits_ne_nil

/-- Filling in a format fills in its pieces. -/
theorem formatName_toList (naming : ClassNaming) (id : Nat) (oldName : String) :
    (naming.formatName id oldName).toList =
      naming.pieces.flatMap (FormatPiece.fill (toString id).toList oldName.toList) := by
  have hnumber := FormatPiece.replaceFrom_number (toString id).toList naming.format.toList
  have hold := FormatPiece.replaceFrom_oldName (toString_ne_nil id) isDigit_toString
    oldName.toList naming.format.toList
  rw [← hnumber] at hold
  simp only [formatName, Text.replaceAll, String.toList_ofList]
  exact hold

/-- A format in which the placeholder for the number occurs has a place for it. -/
theorem number_mem_pieces {naming : ClassNaming}
    (h : Text.contains naming.format idPlaceholder = true) :
    FormatPiece.number ∈ naming.pieces :=
  FormatPiece.number_mem_ofChars h

end ClassNaming

end Nomenclator
