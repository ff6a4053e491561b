import Mathlib.Tactic
import Nomenclator.ClassFile.Decoder

/-!
# Decoders against the bytes they read

The bytes of numbers and tables, and what it means that a decoder reads them: it takes
exactly these bytes from the front, whatever follows them. Decoders that run one after
another then read bytes that stand one after another.

Results:
* `Decoder.Reads`: a decoder takes exactly the given bytes.
* `word_reads`, `doubleWord_reads`, `take_reads`, `table_reads`: numbers, blocks and tables
  are read back from their bytes.
* `doubleWord_eq_iff`: any four bytes are the bytes of one number.
-/

namespace Nomenclator

/-! ## Bytes -/

/-- What holds of the numbers below 256 holds of every byte. -/
theorem forall_byte {P : UInt8 → Prop} (h : ∀ n < 256, P (UInt8.ofNat n)) (b : UInt8) : P b := by
  have hb := h b.toNat b.toNat_lt
  rwa [UInt8.ofNat_toNat] at hb

namespace Encoder

/-- The two bytes of a number, the high one first. -/
def word (n : UInt16) : List UInt8 := [UInt8.ofNat (n.toNat / 256), UInt8.ofNat n.toNat]

/-- The four bytes of a number, the highest first. -/
def doubleWord (n : UInt32) : List UInt8 :=
  [UInt8.ofNat (n.toNat / 16777216), UInt8.ofNat (n.toNat / 65536), UInt8.ofNat (n.toNat / 256),
    UInt8.ofNat n.toNat]

/-- A table: the number of its items in two bytes, then the items. -/
def table {α : Type} (item : α → List UInt8) (items : List α) : List UInt8 :=
  word (UInt16.ofNat items.length) ++ items.flatMap item

/-- The two bytes are those of the number they make up. -/
theorem word_eq_iff {high low : UInt8} {n : UInt16} :
    word n = [high, low] ↔ n.toNat = high.toNat * 256 + low.toNat := by
  have hn := n.toNat_lt
  have hhigh := high.toNat_lt
  have hlow := low.toNat_lt
  simp only [word, List.cons.injEq, and_true, ← UInt8.toNat_inj, UInt8.toNat_ofNat']
  omega

/-- The four bytes are those of the number they make up. -/
theorem doubleWord_eq_iff {a b c d : UInt8} {n : UInt32} :
    doubleWord n = [a, b, c, d] ↔
      n.toNat = ((a.toNat * 256 + b.toNat) * 256 + c.toNat) * 256 + d.toNat := by
  have hn := n.toNat_lt
  have ha := a.toNat_lt
  have hb := b.toNat_lt
  have hc := c.toNat_lt
  have hd := d.toNat_lt
  simp only [doubleWord, List.cons.injEq, and_true, ← UInt8.toNat_inj, UInt8.toNat_ofNat']
  omega

end Encoder

namespace Decoder

variable {α β : Type}

/-- Whatever follows them, the decoder takes exactly these bytes and makes this item of
    them. -/
def Reads (item : Decoder α) (bytes : List UInt8) (a : α) : Prop :=
  ∀ rest, item.run (bytes ++ rest) = .ok (a, rest)

/-! ## One decoder after another -/

theorem Reads.pure (a : α) : Reads (Pure.pure a) [] a := fun _ => rfl

theorem Reads.bind {first : Decoder α} {next : α → Decoder β} {bytes more : List UInt8} {a : α}
    {b : β} (hfirst : first.Reads bytes a) (hnext : (next a).Reads more b) :
    (first >>= next).Reads (bytes ++ more) b := by
  intro rest
  rw [List.append_assoc, StateT.run_bind, hfirst]
  exact hnext rest

/-- A last step that only puts the parts together takes no bytes. -/
theorem Reads.map {first : Decoder α} {bytes : List UInt8} {a : α} (hfirst : first.Reads bytes a)
    (f : α → β) : (first >>= fun x => Pure.pure (f x)).Reads bytes (f a) := by
  have h : (first >>= fun x => Pure.pure (f x)).Reads (bytes ++ []) (f a) :=
    hfirst.bind (Reads.pure (f a))
  rwa [List.append_nil] at h

/-- A step that looks something up takes no bytes. -/
theorem Reads.lift {lookup : Except Malformed α} {a : α} (h : lookup = .ok a) :
    Reads (liftM lookup) [] a := by
  subst h
  exact fun _ => rfl

theorem Reads.lift_bind {lookup : Except Malformed α} {next : α → Decoder β}
    {bytes : List UInt8} {a : α} {b : β} (h : lookup = .ok a) (hnext : (next a).Reads bytes b) :
    (liftM lookup >>= next).Reads bytes b := by
  have hboth : (liftM lookup >>= next).Reads ([] ++ bytes) b := (Reads.lift h).bind hnext
  rwa [List.nil_append] at hboth

/-! ## Numbers and blocks -/

theorem byte_reads (b : UInt8) : byte.Reads [b] b := fun _ => rfl

theorem word_reads (n : UInt16) : word.Reads (Encoder.word n) n := by
  intro rest
  have hbytes := Encoder.word_eq_iff.mp (rfl : Encoder.word n = _)
  show Except.ok (UInt16.ofNat _, rest) = _
  rw [← hbytes, UInt16.ofNat_toNat]

theorem doubleWord_reads (n : UInt32) : doubleWord.Reads (Encoder.doubleWord n) n := by
  -- The number is read as two numbers of two bytes each.
  have hn := n.toNat_lt
  have hhigh : Encoder.word (UInt16.ofNat (n.toNat / 65536)) =
      [UInt8.ofNat (n.toNat / 16777216), UInt8.ofNat (n.toNat / 65536)] := by
    rw [Encoder.word_eq_iff]
    simp only [UInt8.toNat_ofNat', UInt16.toNat_ofNat']
    omega
  have hlow : Encoder.word (UInt16.ofNat n.toNat) =
      [UInt8.ofNat (n.toNat / 256), UInt8.ofNat n.toNat] := by
    rw [Encoder.word_eq_iff]
    simp only [UInt8.toNat_ofNat', UInt16.toNat_ofNat']
    omega
  have hbytes : Encoder.doubleWord n = Encoder.word (UInt16.ofNat (n.toNat / 65536)) ++
      Encoder.word (UInt16.ofNat n.toNat) := by
    rw [hhigh, hlow]
    rfl
  have hnumber : n = UInt32.ofNat ((UInt16.ofNat (n.toNat / 65536)).toNat * 65536 +
      (UInt16.ofNat n.toNat).toNat) := by
    apply UInt32.toNat_inj.mp
    simp only [UInt32.toNat_ofNat', UInt16.toNat_ofNat']
    omega
  rw [hbytes]
  nth_rewrite 3 [hnumber]
  exact (word_reads _).bind ((word_reads _).map _)

theorem take_reads (bytes : List UInt8) : (take bytes.length).Reads bytes bytes := by
  intro rest
  show (if (List.take _ _).length = _ then _ else _) = _
  rw [List.take_left, List.drop_left, if_pos rfl]

/-! ## Tables -/

/-- The bytes of items that are read one by one are read in a row. -/
theorem times_reads {item : Decoder β} {bytes : α → List UInt8} {items : List α}
    {values : List β} (h : List.Forall₂ (fun a b => item.Reads (bytes a) b) items values) :
    (times item items.length).Reads (items.flatMap bytes) values := by
  induction h with
  | nil => exact Reads.pure []
  | cons hfirst _ ih => exact hfirst.bind (ih.map _)

/-- A table of at most 65535 items is read if its items are. -/
theorem table_reads {item : Decoder β} {bytes : α → List UInt8} {items : List α}
    {values : List β} (hlength : items.length < 65536)
    (h : List.Forall₂ (fun a b => item.Reads (bytes a) b) items values) :
    (table item).Reads (Encoder.table bytes items) values := by
  have hcount : (UInt16.ofNat items.length).toNat = items.length :=
    UInt16.toNat_ofNat_of_lt' hlength
  apply (word_reads _).bind
  rw [hcount]
  exact times_reads h

end Decoder

end Nomenclator
