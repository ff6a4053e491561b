import Nomenclator.Proofs.Decoding
import Nomenclator.Proofs.TextConstants

/-!
# Which bytes are texts

Bytes are read as a text exactly if they can be cut into groups whose units are UTF-16. The
first bits of a group say how long it is, so there is one way to cut at most. A unit may be in
a longer group than it needs, and surrogates are paired across groups: what counts is the row
of units.

Results:
* `units?_eq_some_iff`: units are read from bytes exactly if the bytes split into groups that
  stand for them.
* `chars?_eq_some_iff`: characters are read from units exactly if these are the units of the
  characters.
* `isSome_chars?_iff`: units are characters exactly if surrogates come in pairs only.
* `decode?_exact`: which bytes are read as a text, and as which one.
-/

namespace Nomenclator.ModifiedUtf8

/-! ## Groups of bytes -/

/-- The bytes are a row of groups, which stand for the units. -/
def SplitsInto (bytes : List UInt8) (units : List Nat) : Prop :=
  ∃ groups, bytes = groups.flatten ∧ List.Forall₂ Group groups units

theorem SplitsInto.nil : SplitsInto [] [] := ⟨[], rfl, .nil⟩

theorem SplitsInto.cons {group bytes : List UInt8} {u : Nat} {units : List Nat}
    (hgroup : Group group u) (h : SplitsInto bytes units) :
    SplitsInto (group ++ bytes) (u :: units) := by
  obtain ⟨groups, rfl, hgroups⟩ := h
  exact ⟨group :: groups, rfl, .cons hgroup hgroups⟩

theorem group_one {a : UInt8} (hlead : (a &&& 0x80 == 0) = true) (hzero : ¬(a == 0) = true) :
    Group [a] a.toNat := by
  have hbyte : ∀ a : UInt8, (a &&& 0x80 == 0) = true → ¬(a == 0) = true →
      0 < a.toNat ∧ a.toNat < 0x80 := by
    apply forall_byte
    decide +kernel
  obtain ⟨hpos, hlt⟩ := hbyte a hlead hzero
  have hgroup := Group.one hpos hlt
  rwa [UInt8.ofNat_toNat] at hgroup

/-- A byte that continues a group is `10` and its payload. -/
theorem continuation_eq {b : UInt8} (h : isContinuation b = true) :
    payload b < 0x40 ∧ b = UInt8.ofNat (0x80 + payload b) := by
  revert b
  apply forall_byte
  decide +kernel

theorem group_two {a b : UInt8} (hlead : (a &&& 0xe0 == 0xc0) = true)
    (hb : isContinuation b = true) : Group [a, b] ((a &&& 0x1f).toNat * 64 + payload b) := by
  have hbyte : ∀ a : UInt8, (a &&& 0xe0 == 0xc0) = true →
      (a &&& 0x1f).toNat < 0x20 ∧ a = UInt8.ofNat (0xc0 + (a &&& 0x1f).toNat) := by
    apply forall_byte
    decide +kernel
  obtain ⟨hx, ha⟩ := hbyte a hlead
  obtain ⟨hy, hb⟩ := continuation_eq hb
  have hgroup := Group.two hx hy
  rwa [← ha, ← hb] at hgroup

theorem group_three {a b c : UInt8} (hlead : (a &&& 0xf0 == 0xe0) = true)
    (hb : isContinuation b = true) (hc : isContinuation c = true) :
    Group [a, b, c] ((a &&& 0x0f).toNat * 4096 + payload b * 64 + payload c) := by
  have hbyte : ∀ a : UInt8, (a &&& 0xf0 == 0xe0) = true →
      (a &&& 0x0f).toNat < 0x10 ∧ a = UInt8.ofNat (0xe0 + (a &&& 0x0f).toNat) := by
    apply forall_byte
    decide +kernel
  obtain ⟨hx, ha⟩ := hbyte a hlead
  obtain ⟨hy, hb⟩ := continuation_eq hb
  obtain ⟨hz, hc⟩ := continuation_eq hc
  have hgroup := Group.three hx hy hz
  rwa [← ha, ← hb, ← hc] at hgroup

/-- Bytes from which units are read split into groups. -/
theorem splitsInto_of_units? {bytes : List UInt8} {units : List Nat}
    (h : units? bytes = some units) : SplitsInto bytes units := by
  fun_induction units? bytes generalizing units with
  | case1 =>
    cases h
    exact SplitsInto.nil
  | case2 a bytes hlead hzero => cases h
  | case3 a bytes hlead hzero ih =>
    obtain ⟨others, hothers, rfl⟩ := Option.map_eq_some_iff.mp h
    exact (ih hothers).cons (group_one hlead hzero)
  | case4 a hplain hlead b bytes hb ih =>
    obtain ⟨others, hothers, rfl⟩ := Option.map_eq_some_iff.mp h
    exact (ih hothers).cons (group_two hlead hb)
  | case7 a hplain hshort hlead b c bytes hbc ih =>
    obtain ⟨others, hothers, rfl⟩ := Option.map_eq_some_iff.mp h
    obtain ⟨hb, hc⟩ := Bool.and_eq_true_iff.mp hbc
    exact (ih hothers).cons (group_three hlead hb hc)
  | _ => cases h

/-- Units are read from bytes exactly if the bytes split into groups that stand for them. -/
theorem units?_eq_some_iff {bytes : List UInt8} {units : List Nat} :
    units? bytes = some units ↔ SplitsInto bytes units := by
  constructor
  · exact splitsInto_of_units?
  · rintro ⟨groups, rfl, hgroups⟩
    induction hgroups with
    | nil => rw [List.flatten_nil, units?]
    | cons hgroup _ ih => rw [List.flatten_cons, units?_group hgroup, ih, Option.map_some]

/-- No group stands for more than sixteen bits. -/
theorem Group.lt {group : List UInt8} {u : Nat} (h : Group group u) : u < 0x10000 := by
  cases h <;> omega

theorem SplitsInto.lt {bytes : List UInt8} {units : List Nat} (h : SplitsInto bytes units) :
    ∀ u ∈ units, u < 0x10000 := by
  obtain ⟨groups, -, hgroups⟩ := h
  induction hgroups with
  | nil => exact fun u hu => absurd hu List.not_mem_nil
  | cons hgroup _ ih => exact List.forall_mem_cons.mpr ⟨hgroup.lt, ih⟩

/-! ## Units of characters -/

theorem toNat_ofNat_of_valid {n : Nat} (h : n.isValidChar) : (Char.ofNat n).toNat = n := by
  rw [Char.ofNat, dif_pos h]
  rfl

theorem charUnits_plain {u : Nat} (hu : u < 0x10000) (hhigh : ¬isHighSurrogate u = true)
    (hlow : ¬isLowSurrogate u = true) : charUnits (Char.ofNat u) = [u] := by
  have hvalid : u.isValidChar := by
    simp only [isHighSurrogate, isLowSurrogate, Bool.and_eq_true, decide_eq_true_eq] at hhigh hlow
    unfold Nat.isValidChar
    omega
  rw [charUnits, toNat_ofNat_of_valid hvalid, if_pos hu]

theorem charUnits_paired {u v : Nat} (hu : isHighSurrogate u = true)
    (hv : isLowSurrogate v = true) : charUnits (pairedChar u v) = [u, v] := by
  simp only [isHighSurrogate, isLowSurrogate, Bool.and_eq_true, decide_eq_true_eq] at hu hv
  have hvalid : (0x10000 + (u - 0xd800) * 0x400 + (v - 0xdc00)).isValidChar := by
    unfold Nat.isValidChar
    omega
  rw [charUnits, pairedChar, toNat_ofNat_of_valid hvalid, if_neg (by omega)]
  simp only [List.cons.injEq, and_true]
  omega

/-- Characters are read from units of sixteen bits exactly if these are the units of the
    characters. -/
theorem chars?_eq_some_iff {units : List Nat} (hunits : ∀ u ∈ units, u < 0x10000)
    {chars : List Char} : chars? units = some chars ↔ chars.flatMap charUnits = units := by
  constructor
  · intro h
    fun_induction chars? units generalizing chars with
    | case1 =>
      cases h
      rfl
    | case2 u hu v units hv ih =>
      obtain ⟨others, hothers, rfl⟩ := Option.map_eq_some_iff.mp h
      have hrest := ih (fun w hw => hunits w (by simp [hw])) hothers
      rw [List.flatMap_cons, charUnits_paired hu hv, hrest]
      rfl
    | case3 u hu v units hv => cases h
    | case4 u hu => cases h
    | case5 u units hu hlow => cases h
    | case6 u units hu hlow ih =>
      obtain ⟨others, hothers, rfl⟩ := Option.map_eq_some_iff.mp h
      have hrest := ih (fun w hw => hunits w (List.mem_cons_of_mem _ hw)) hothers
      rw [List.flatMap_cons, charUnits_plain (hunits u List.mem_cons_self) hu hlow, hrest]
      rfl
  · rintro rfl
    exact chars?_flatMap chars

/-! ## Pairs of surrogates -/

/-- A unit that starts a pair stands at the position. -/
def HighAt (units : List Nat) (i : Nat) : Prop := ∃ u ∈ units[i]?, isHighSurrogate u = true

/-- A unit that ends a pair stands at the position. -/
def LowAt (units : List Nat) (i : Nat) : Prop := ∃ u ∈ units[i]?, isLowSurrogate u = true

/-- No surrogate is alone: one that starts a pair stands exactly where one that ends a pair
    follows. -/
structure Paired (units : List Nat) : Prop where
  not_low : ¬LowAt units 0
  high_iff_low : ∀ i, HighAt units i ↔ LowAt units (i + 1)

theorem not_low_of_high {u : Nat} (h : isHighSurrogate u = true) : isLowSurrogate u = false := by
  simp only [isHighSurrogate, Bool.and_eq_true, decide_eq_true_eq] at h
  simp only [isLowSurrogate, Bool.and_eq_false_iff, decide_eq_false_iff_not]
  omega

theorem not_high_of_low {u : Nat} (h : isLowSurrogate u = true) : isHighSurrogate u = false := by
  by_contra hhigh
  rw [Bool.not_eq_false] at hhigh
  rw [not_low_of_high hhigh] at h
  cases h

theorem paired_nil : Paired [] where
  not_low := by simp [LowAt]
  high_iff_low := by simp [HighAt, LowAt]

theorem highAt_cons_zero (u : Nat) (units : List Nat) :
    HighAt (u :: units) 0 ↔ isHighSurrogate u = true := by simp [HighAt]

theorem lowAt_cons_zero (u : Nat) (units : List Nat) :
    LowAt (u :: units) 0 ↔ isLowSurrogate u = true := by simp [LowAt]

theorem highAt_cons_succ (u : Nat) (units : List Nat) (i : Nat) :
    HighAt (u :: units) (i + 1) ↔ HighAt units i := by simp [HighAt]

theorem lowAt_cons_succ (u : Nat) (units : List Nat) (i : Nat) :
    LowAt (u :: units) (i + 1) ↔ LowAt units i := by simp [LowAt]

/-- The first unit ends no pair, and it starts one exactly if the next unit ends one. -/
theorem paired_cons_iff (u : Nat) (units : List Nat) :
    Paired (u :: units) ↔ ¬isLowSurrogate u = true ∧
      (isHighSurrogate u = true ↔ LowAt units 0) ∧ ∀ i, HighAt units i ↔ LowAt units (i + 1) := by
  constructor
  · rintro ⟨hlow, hpairs⟩
    refine ⟨(lowAt_cons_zero u units).not.mp hlow, ?_, fun i => ?_⟩
    · rw [← highAt_cons_zero u units, hpairs, lowAt_cons_succ]
    · rw [← highAt_cons_succ u, hpairs, lowAt_cons_succ]
  · rintro ⟨hlow, hfirst, hpairs⟩
    refine ⟨(lowAt_cons_zero u units).not.mpr hlow, fun i => ?_⟩
    cases i with
    | zero => rw [highAt_cons_zero, lowAt_cons_succ, hfirst]
    | succ i => rw [highAt_cons_succ, lowAt_cons_succ, hpairs]

theorem paired_cons_plain {u : Nat} (hhigh : ¬isHighSurrogate u = true)
    (hlow : ¬isLowSurrogate u = true) (units : List Nat) :
    Paired (u :: units) ↔ Paired units := by
  rw [paired_cons_iff]
  constructor
  · rintro ⟨-, hfirst, hpairs⟩
    exact ⟨hfirst.not.mp hhigh, hpairs⟩
  · rintro ⟨hfirst, hpairs⟩
    exact ⟨hlow, iff_of_false hhigh hfirst, hpairs⟩

theorem paired_cons_cons {u v : Nat} (hu : isHighSurrogate u = true)
    (hv : isLowSurrogate v = true) (units : List Nat) :
    Paired (u :: v :: units) ↔ Paired units := by
  have hfirst : LowAt (v :: units) 0 := (lowAt_cons_zero v units).mpr hv
  have hhigh : ¬isHighSurrogate v = true := by simp [not_high_of_low hv]
  rw [paired_cons_iff]
  constructor
  · rintro ⟨-, -, hpairs⟩
    refine ⟨?_, fun i => ?_⟩
    · rw [← lowAt_cons_succ v, ← hpairs, highAt_cons_zero]
      exact hhigh
    · rw [← highAt_cons_succ v, hpairs, lowAt_cons_succ]
  · rintro ⟨hlow, hpairs⟩
    refine ⟨by simp [not_low_of_high hu], iff_of_true hu hfirst, fun i => ?_⟩
    cases i with
    | zero =>
      rw [highAt_cons_zero, lowAt_cons_succ]
      exact iff_of_false hhigh hlow
    | succ i => rw [highAt_cons_succ, lowAt_cons_succ, hpairs]

/-- Units are read as characters exactly if no surrogate is alone. -/
theorem isSome_chars?_iff (units : List Nat) : (chars? units).isSome ↔ Paired units := by
  fun_induction chars? units with
  | case1 => simp [paired_nil]
  | case2 u hu v units hv ih => rw [Option.isSome_map, ih, paired_cons_cons hu hv]
  | case3 u hu v units hv =>
    -- The second unit does not end the pair that the first one starts.
    refine iff_of_false (by simp) fun h => hv ?_
    obtain ⟨-, hfirst, -⟩ := (paired_cons_iff u _).mp h
    exact (lowAt_cons_zero v units).mp (hfirst.mp hu)
  | case4 u hu =>
    refine iff_of_false (by simp) fun h => ?_
    obtain ⟨-, hfirst, -⟩ := (paired_cons_iff u _).mp h
    exact paired_nil.not_low (hfirst.mp hu)
  | case5 u units hu hlow =>
    exact iff_of_false (by simp) fun h => ((paired_cons_iff u _).mp h).1 hlow
  | case6 u units hu hlow ih => rw [Option.isSome_map, ih, paired_cons_plain hu hlow]

/-! ## Texts -/

/-- The UTF-16 code units of a text. -/
def textUnits (text : String) : List Nat := text.toList.flatMap charUnits

theorem decode?_of_splitsInto {bytes : List UInt8} {units : List Nat}
    (h : SplitsInto bytes units) : decode? bytes = (chars? units).map String.ofList := by
  rw [decode?, units?_eq_some_iff.mpr h, Option.bind_some]

theorem exists_splitsInto {bytes : List UInt8} (h : (decode? bytes).isSome) :
    ∃ units, SplitsInto bytes units := by
  cases hunits : units? bytes with
  | none => simp [decode?, hunits] at h
  | some units => exact ⟨units, splitsInto_of_units? hunits⟩

/-- Decoding gives back every text that is encoded. It succeeds exactly on bytes that split into
    groups whose units hold no lone surrogate, and then gives the text with these units. -/
theorem decode?_exact :
    (∀ text, decode? (encode text) = some text) ∧
    ∀ bytes,
      ((decode? bytes).isSome ↔ ∃ units, SplitsInto bytes units ∧ Paired units) ∧
      ∀ units, SplitsInto bytes units →
        ∀ text, decode? bytes = some text ↔ textUnits text = units := by
  refine ⟨decode?_encode, fun bytes => ⟨⟨fun h => ?_, ?_⟩, fun units hsplits text => ?_⟩⟩
  · obtain ⟨units, hsplits⟩ := exists_splitsInto h
    rw [decode?_of_splitsInto hsplits, Option.isSome_map, isSome_chars?_iff] at h
    exact ⟨units, hsplits, h⟩
  · rintro ⟨units, hsplits, hpaired⟩
    rw [decode?_of_splitsInto hsplits, Option.isSome_map, isSome_chars?_iff]
    exact hpaired
  · rw [textUnits, ← chars?_eq_some_iff hsplits.lt, decode?_of_splitsInto hsplits,
      Option.map_eq_some_iff]
    constructor
    · rintro ⟨chars, hchars, rfl⟩
      rwa [String.toList_ofList]
    · exact fun hchars => ⟨text.toList, hchars, String.ofList_toList⟩

-- A unit is read from a longer group than it needs, and only the longer one stands for zero.
example : decode? [0xe0, 0x81, 0x81, 0xc0, 0x80] = some "A\x00" := by decide +kernel

end Nomenclator.ModifiedUtf8
