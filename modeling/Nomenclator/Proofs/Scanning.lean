import Mathlib.Tactic
import Nomenclator.Text.Scanner

/-!
# Scanners against the text they read

A scanner reads a printed form exactly if it takes an item from the front of a text in
one case only: the text is the printed form of the item followed by the rest, and the
item may stand before that rest. What may stand where is part of the statement because
names, for one, have no end of their own.

Results:
* `Reads`: a scanner reads a printed form exactly.
* `expect_eq_some_iff`, `run1_eq_some_iff`: the same for single characters and for runs.
* `Reads.repeatWhile`, `Reads.repeatWhile_closed`: a scanner for items gives one for
  items in a row.
-/

namespace Nomenclator.Scanner

variable {α : Type}

/-- The scanner takes an item from a text exactly if the text is the printed form of the
    item followed by the rest and the item is accepted before that rest. -/
def Reads (scan : Scanner α) (chars : α → List Char) (accepts : α → List Char → Prop) : Prop :=
  ∀ text a rest, scan text = some (a, rest) ↔ text = chars a ++ rest ∧ accepts a rest

theorem Reads.read {scan : Scanner α} {chars : α → List Char} {accepts : α → List Char → Prop}
    (h : scan.Reads chars accepts) {a : α} (rest : List Char) (ha : accepts a rest) :
    scan (chars a ++ rest) = some (a, rest) :=
  (h _ _ _).mpr ⟨rfl, ha⟩

theorem Reads.congr {scan : Scanner α} {chars : α → List Char}
    {accepts accepts' : α → List Char → Prop} (h : scan.Reads chars accepts)
    (hiff : ∀ a rest, accepts a rest ↔ accepts' a rest) : scan.Reads chars accepts' := by
  intro text a rest
  rw [h text a rest, hiff]

/-! ## Single characters -/

theorem expect_eq_some_iff {c : Char} {text rest : List Char} :
    expect c text = some rest ↔ text = c :: rest := by
  cases text with
  | nil => simp [expect]
  | cons d text => simp [expect]

/-- A scanner for items gives one for items behind a mark. -/
theorem Reads.behind {scan : Scanner α} {chars : α → List Char} {accepts : α → List Char → Prop}
    (h : scan.Reads chars accepts) (mark : Char) :
    Reads (fun text => do let rest ← expect mark text; scan rest) (fun a => mark :: chars a)
      accepts := by
  intro text a rest
  simp only [Option.bind_eq_bind, Option.bind_eq_some_iff, expect_eq_some_iff, h _ _ _]
  constructor
  · rintro ⟨_, rfl, rfl, haccepts⟩
    exact ⟨rfl, haccepts⟩
  · rintro ⟨rfl, haccepts⟩
    exact ⟨_, rfl, rfl, haccepts⟩

theorem startsWith_iff {c : Char} {text : List Char} :
    startsWith c text = true ↔ ∃ rest, text = c :: rest := by
  cases text with
  | nil => simp [startsWith]
  | cons d text => simp [startsWith]

@[simp] theorem startsWith_nil (c : Char) : startsWith c [] = false := rfl

@[simp] theorem startsWith_cons (c d : Char) (text : List Char) :
    startsWith c (d :: text) = decide (d = c) := rfl

theorem startsWith_eq_false_iff {c : Char} {text : List Char} :
    startsWith c text = false ↔ ∀ d ∈ text.head?, decide (d = c) = false := by
  cases text with
  | nil => simp
  | cons d text => simp

/-! ## Runs -/

theorem takeWhile_eq_nil {p : Char → Bool} {rest : List Char}
    (h : ∀ c ∈ rest.head?, p c = false) : rest.takeWhile p = [] := by
  cases rest with
  | nil => rfl
  | cons c rest => simp [h c rfl]

theorem takeWhile_run {p : Char → Bool} {taken rest : List Char}
    (htaken : ∀ c ∈ taken, p c = true) (hrest : ∀ c ∈ rest.head?, p c = false) :
    (taken ++ rest).takeWhile p = taken := by
  rw [List.takeWhile_append_of_pos htaken, takeWhile_eq_nil hrest, List.append_nil]

theorem dropWhile_run {p : Char → Bool} {taken rest : List Char}
    (htaken : ∀ c ∈ taken, p c = true) (hrest : ∀ c ∈ rest.head?, p c = false) :
    (taken ++ rest).dropWhile p = rest := by
  have happend := List.takeWhile_append_dropWhile (p := p) (l := taken ++ rest)
  rw [takeWhile_run htaken hrest] at happend
  exact List.append_cancel_left happend

theorem head?_dropWhile (p : Char → Bool) (text : List Char) :
    ∀ c ∈ (text.dropWhile p).head?, p c = false := by
  intro c hc
  have hnot := List.head?_dropWhile_not p text
  rw [Option.mem_def.mp hc] at hnot
  simpa using hnot

/-- A run is as long as can be and not empty. -/
theorem run1_eq_some_iff {p : Char → Bool} {text taken rest : List Char} :
    run1 p text = some (taken, rest) ↔
      text = taken ++ rest ∧ taken ≠ [] ∧ (∀ c ∈ taken, p c = true) ∧
        ∀ c ∈ rest.head?, p c = false := by
  unfold run1
  constructor
  · intro h
    split at h
    · cases h
    · next hne =>
      obtain ⟨rfl, rfl⟩ := Prod.mk.injEq .. ▸ Option.some.inj h
      refine ⟨List.takeWhile_append_dropWhile.symm, hne, ?_, head?_dropWhile p text⟩
      exact List.all_eq_true.mp List.all_takeWhile
  · rintro ⟨rfl, hne, htaken, hrest⟩
    rw [takeWhile_run htaken hrest, dropWhile_run htaken hrest]
    cases taken with
    | nil => exact absurd rfl hne
    | cons c taken => rfl

/-! ## Items in a row -/

/-- Every item is accepted before the printed forms of those behind it and the rest. -/
def AcceptsRow (chars : α → List Char) (accepts : α → List Char → Prop) :
    List α → List Char → Prop
  | [], _ => True
  | a :: items, rest =>
    accepts a (items.flatMap chars ++ rest) ∧ AcceptsRow chars accepts items rest

/-- Where it does not matter what follows in a row, each item is accepted by itself. -/
theorem acceptsRow_iff {chars : α → List Char} {accepts : α → List Char → Prop} {P : α → Prop}
    {rest : List Char} (h : ∀ a (behind : List α), accepts a (behind.flatMap chars ++ rest) ↔ P a)
    (items : List α) : AcceptsRow chars accepts items rest ↔ ∀ a ∈ items, P a := by
  induction items with
  | nil => simp [AcceptsRow]
  | cons a items ih => rw [AcceptsRow, h, ih, List.forall_mem_cons]

section Repeat

variable {more : List Char → Bool} {item : Scanner α} {chars : α → List Char}
  {accepts : α → List Char → Prop}

theorem repeatUpTo_sound (hitem : item.Reads chars accepts) {most : Nat} {text rest : List Char}
    {items : List α} (h : repeatUpTo more item most text = some (items, rest)) :
    text = items.flatMap chars ++ rest ∧ AcceptsRow chars accepts items rest ∧
      more rest = false := by
  fun_induction repeatUpTo more item most text generalizing items with
  | case1 text hmore => cases h
  | case2 text hmore =>
    obtain ⟨rfl, rfl⟩ := Prod.mk.injEq .. ▸ Option.some.inj h
    exact ⟨rfl, trivial, by simpa using hmore⟩
  | case3 most text hmore hfirst => cases h
  | case4 most text hmore first behind hfirst hbehind ih => cases h
  | case5 most text hmore first behind hfirst others last hbehind ih =>
    obtain ⟨rfl, rfl⟩ := Prod.mk.injEq .. ▸ Option.some.inj h
    obtain ⟨rfl, haccepts⟩ := (hitem _ _ _).mp hfirst
    obtain ⟨rfl, hrow, hrest⟩ := ih hbehind
    refine ⟨?_, ⟨haccepts, hrow⟩, hrest⟩
    rw [List.flatMap_cons, List.append_assoc]
  | case6 most text hmore =>
    obtain ⟨rfl, rfl⟩ := Prod.mk.injEq .. ▸ Option.some.inj h
    exact ⟨rfl, trivial, by simpa using hmore⟩

theorem repeatUpTo_complete (hitem : item.Reads chars accepts)
    (hmore : ∀ a rest, accepts a rest → more (chars a ++ rest) = true) {rest : List Char}
    (hrest : more rest = false) {items : List α} (hrow : AcceptsRow chars accepts items rest)
    {most : Nat} (hmost : items.length ≤ most) :
    repeatUpTo more item most (items.flatMap chars ++ rest) = some (items, rest) := by
  induction items generalizing most with
  | nil => cases most <;> simp [repeatUpTo, hrest]
  | cons a items ih =>
    obtain ⟨ha, hrow⟩ := hrow
    obtain ⟨most, rfl⟩ : ∃ n, most = n + 1 := ⟨most - 1, by simp at hmost; omega⟩
    have hfirst := (hitem _ _ _).mpr ⟨rfl, ha⟩
    rw [List.flatMap_cons, List.append_assoc, repeatUpTo, if_pos (hmore a _ ha), hfirst]
    dsimp only
    rw [ih hrow (Nat.le_of_succ_le_succ hmost)]

theorem length_le_of_acceptsRow (hne : ∀ a rest, accepts a rest → chars a ≠ [])
    {rest : List Char} {items : List α} (hrow : AcceptsRow chars accepts items rest) :
    items.length ≤ (items.flatMap chars ++ rest).length := by
  induction items with
  | nil => simp
  | cons a items ih =>
    have hle := ih hrow.2
    have hpos := List.length_pos_iff.mpr (hne a _ hrow.1)
    simp only [List.flatMap_cons, List.length_append, List.length_cons] at hle ⊢
    omega

/-- If `more` holds wherever an item starts and no item is printed as nothing, then
    repetition reads items in a row, up to where `more` does not hold. -/
theorem Reads.repeatWhile (hitem : item.Reads chars accepts) (more : List Char → Bool)
    (hmore : ∀ a rest, accepts a rest → more (chars a ++ rest) = true)
    (hne : ∀ a rest, accepts a rest → chars a ≠ []) :
    (repeatWhile more item).Reads (List.flatMap chars)
      fun items rest => AcceptsRow chars accepts items rest ∧ more rest = false := by
  intro text items rest
  constructor
  · exact fun h => repeatUpTo_sound hitem h
  · rintro ⟨rfl, hrow, hrest⟩
    exact repeatUpTo_complete hitem hmore hrest hrow (length_le_of_acceptsRow hne hrow)

/-- Repetition of items that are accepted whatever follows them. -/
theorem Reads.repeatWhile_closed {P : α → Prop} (hitem : item.Reads chars fun a _ => P a)
    (more : List Char → Bool) (hmore : ∀ a rest, P a → more (chars a ++ rest) = true)
    (hne : ∀ a, P a → chars a ≠ []) :
    (Scanner.repeatWhile more item).Reads (List.flatMap chars)
      fun items rest => (∀ a ∈ items, P a) ∧ more rest = false :=
  (hitem.repeatWhile more hmore fun a _ => hne a).congr fun items rest => by
    rw [acceptsRow_iff fun _ _ => Iff.rfl]

end Repeat

end Nomenclator.Scanner
