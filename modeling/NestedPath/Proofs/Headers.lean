import Mathlib.Tactic.SplitIfs
import NestedPath.Proofs.Reading
import NestedPath.Wire.Item

/-!
The forms of headers and numbers: what their first byte is a marker of, and what the numeral behind
it says. Readers are proved against these forms, never against the thresholds between them.
-/

namespace NestedPath

/-! ### Sizes and counts -/

/-- A size or count within its marker, or in a numeral behind it. -/
inductive Lead (short long : Nat → Marker) (n : Nat) : Bytes → Prop
  | short {b : UInt8} (hb : Marker.ofByte b = short n) : Lead short long n [b]
  | long {b : UInt8} {width : Nat} {ds : Bytes} (hb : Marker.ofByte b = long width)
      (hl : ds.length = width) (hn : ofBigEndian ds = n) : Lead short long n (b :: ds)

lemma ofBigEndian_bigEndian_of_lt {k n : Nat} (h : n < 1 <<< (8 * k)) :
    ofBigEndian (bigEndian k n) = n := by
  rw [ofBigEndian_bigEndian, Nat.mod_eq_of_lt h]

lemma Lead.of_wide {short long : Nat → Marker} {b : UInt8} {width n : Nat}
    (hb : Marker.ofByte b = long width) (hn : n < 1 <<< (8 * width)) :
    Lead short long n (b :: bigEndian width n) :=
  .long hb (length_bigEndian _ _) (ofBigEndian_bigEndian_of_lt hn)

namespace Marker

lemma ofByte_fixstr : ∀ n < 32, ofByte (0xa0 + UInt8.ofNat n) = .fixstr n := by decide

lemma ofByte_fixarray : ∀ n < 16, ofByte (0x90 + UInt8.ofNat n) = .fixarray n := by decide

lemma ofByte_fixmap : ∀ n < 16, ofByte (0x80 + UInt8.ofNat n) = .fixmap n := by decide

lemma ofByte_fixint : ∀ n < 128, ofByte (UInt8.ofNat n) = .fixint (Int64.ofNat n) := by decide

lemma ofByte_negative :
    ∀ n < 32, ofByte (UInt8.ofNat (224 + n)) = .fixint (Int64.ofInt (n - 32)) := by
  decide

end Marker

namespace Item

lemma lead_sizeHeader {n : Nat} (h : n < 1 <<< 32) : Lead .fixstr .str n (sizeHeader n) := by
  unfold sizeHeader
  split
  · exact .short (Marker.ofByte_fixstr n ‹_›)
  split
  · exact .of_wide (by decide) (by omega)
  split
  · exact .of_wide (by decide) (by omega)
  · exact .of_wide (by decide) (by omega)

lemma lead_countHeader {short long : Nat → Marker} {b b2 b4 : UInt8} {n : Nat}
    (hb : ∀ n < 16, Marker.ofByte (b + UInt8.ofNat n) = short n) (h2 : Marker.ofByte b2 = long 2)
    (h4 : Marker.ofByte b4 = long 4) (h : n < 1 <<< 32) :
    Lead short long n (countHeader b b2 b4 n) := by
  unfold countHeader
  split
  · exact .short (hb n ‹_›)
  split
  · exact .of_wide h2 (by omega)
  · exact .of_wide h4 (by omega)

lemma lead_array {n : Nat} (h : n < 1 <<< 32) : Lead .fixarray .array n (bytes (.array n)) :=
  lead_countHeader Marker.ofByte_fixarray rfl rfl h

lemma lead_map {n : Nat} (h : n < 1 <<< 32) : Lead .fixmap .map n (bytes (.map n)) :=
  lead_countHeader Marker.ofByte_fixmap rfl rfl h

end Item

/-! ### Numbers -/

/-- A number within its marker, or in an unsigned or signed numeral behind it. -/
inductive NumberLead (n : Int64) : Bytes → Prop
  | short {b : UInt8} (hb : Marker.ofByte b = .fixint n) : NumberLead n [b]
  | uint {b : UInt8} {width : Nat} {ds : Bytes} (hb : Marker.ofByte b = .uint width)
      (hl : ds.length = width) (hn : Int64.ofNat (ofBigEndian ds) = n) : NumberLead n (b :: ds)
  | int {b : UInt8} {width : Nat} {ds : Bytes} (hb : Marker.ofByte b = .int width)
      (hl : ds.length = width)
      (hn : Int64.ofInt (Int.bmod (ofBigEndian ds) (1 <<< (8 * width))) = n) :
      NumberLead n (b :: ds)

lemma toInt_eq_bmod (n : Int64) : n.toInt = (n.toUInt64.toNat : Int).bmod 0x10000000000000000 :=
  BitVec.toInt_eq_toNat_bmod n.toBitVec

lemma ofNat_toNat_toUInt64 (n : Int64) : Int64.ofNat n.toUInt64.toNat = n := by
  rw [← Int64.toInt_inj, toInt_eq_bmod n]
  exact Int64.toInt_ofNat'

/-- The low digits of a number in two's complement hold it if it is small enough. -/
lemma ofInt_bmod_bigEndian {n : Int64} {k : Nat} (hk : 1 <<< (8 * k) ∣ 0x10000000000000000)
    (hle : -((1 <<< (8 * k) : Nat) : Int) ≤ n.toInt * 2)
    (hlt : n.toInt * 2 < ((1 <<< (8 * k) : Nat) : Int)) :
    Int64.ofInt (Int.bmod (ofBigEndian (bigEndian k n.toUInt64.toNat)) (1 <<< (8 * k))) = n := by
  rw [ofBigEndian_bigEndian, Int.natCast_emod, Int.emod_bmod, ← Int.bmod_bmod_of_dvd hk,
    ← toInt_eq_bmod, Int.bmod_eq_of_le_mul_two hle hlt, Int64.ofInt_toInt]

lemma toNat_toUInt64 (n : Int64) :
    (n.toUInt64.toNat : Int) = n.toInt ∧ 0 ≤ n.toInt ∨
      (n.toUInt64.toNat : Int) = n.toInt + 0x10000000000000000 ∧ n.toInt < 0 := by
  have h := toInt_eq_bmod n
  have hlt : n.toUInt64.toNat < 1 <<< 64 := n.toUInt64.toNat_lt
  simp only [Int.bmod] at h
  split at h <;> omega

namespace Item

lemma lead_number (n : Int64) : NumberLead n (bytes (.number n)) := by
  have hbits := toNat_toUInt64 n
  have hlt : n.toUInt64.toNat < 1 <<< 64 := n.toUInt64.toNat_lt
  -- one argument for the numerals without a sign, and one for those in two's complement
  have hu {b : UInt8} {k : Nat} (hb : Marker.ofByte b = .uint k)
      (h : n.toUInt64.toNat < 1 <<< (8 * k)) :
      NumberLead n (b :: bigEndian k n.toUInt64.toNat) :=
    .uint hb (length_bigEndian _ _) (by
      rw [ofBigEndian_bigEndian_of_lt h, ofNat_toNat_toUInt64])
  have hi {b : UInt8} {k : Nat} (hb : Marker.ofByte b = .int k)
      (hk : 1 <<< (8 * k) ∣ 0x10000000000000000)
      (hle : -((1 <<< (8 * k) : Nat) : Int) ≤ n.toInt * 2)
      (hlt : n.toInt * 2 < ((1 <<< (8 * k) : Nat) : Int)) :
      NumberLead n (b :: bigEndian k n.toUInt64.toNat) :=
    .int hb (length_bigEndian _ _) (ofInt_bmod_bigEndian hk hle hlt)
  change NumberLead n (numberBytes n)
  unfold numberBytes
  dsimp only
  split_ifs
  · have h := Marker.ofByte_fixint n.toUInt64.toNat (by omega)
    rw [ofNat_toNat_toUInt64] at h
    exact .short (by simpa using h)
  · exact hu rfl (by omega)
  · exact hu rfl (by omega)
  · exact hu rfl (by omega)
  · exact hu rfl (by omega)
  · -- the low byte of a small negative number lies above the other markers
    have h := Marker.ofByte_negative (n.toInt + 32).toNat (by omega)
    rw [show (((n.toInt + 32).toNat : Nat) : Int) - 32 = n.toInt by omega, Int64.ofInt_toInt,
      ← UInt8.ofNat_mod_size] at h
    refine .short ?_
    rw [← h, ← UInt8.ofNat_mod_size]
    congr 2
    rw [Nat.mul_zero, Nat.shiftRight_zero]
    omega
  · exact hi rfl (by decide) (by omega) (by omega)
  · exact hi rfl (by decide) (by omega) (by omega)
  · exact hi rfl (by decide) (by omega) (by omega)
  · have := n.le_toInt
    exact hi rfl (by decide) (by omega) (by omega)

end Item

/-! ### First bytes -/

namespace Item

lemma sizeHeader_ne_nil (n : Nat) : sizeHeader n ≠ [] := by
  unfold sizeHeader
  split_ifs <;> exact List.cons_ne_nil _ _

lemma countHeader_ne_nil (b b2 b4 : UInt8) (n : Nat) : countHeader b b2 b4 n ≠ [] := by
  unfold countHeader
  split_ifs <;> exact List.cons_ne_nil _ _

lemma bytes_ne_nil {i : Item} (h : ∀ bs, i ≠ .packed bs) : i.bytes ≠ [] := by
  cases i with
  | array n => exact countHeader_ne_nil _ _ _ n
  | map n => exact countHeader_ne_nil _ _ _ n
  | number n =>
    have hn := lead_number n
    generalize bytes (.number n) = hd at hn ⊢
    cases hn <;> exact List.cons_ne_nil _ _
  | text s => exact List.append_ne_nil_of_left_ne_nil (sizeHeader_ne_nil _) _
  | particle type body => exact List.append_ne_nil_of_left_ne_nil (sizeHeader_ne_nil _) _
  | packed bs => exact absurd rfl (h bs)
  | _ => exact List.cons_ne_nil _ _

end Item

/-! ### Reading them -/

open Reader

lemma reads_int (l : String) {w : Nat} {n : Int64} {ds : Bytes} (hl : ds.length = w)
    (hn : Int64.ofInt (Int.bmod (ofBigEndian ds) (1 <<< (8 * w))) = n) :
    Reads (Reader.int w l) ds n := by
  subst hn
  exact (reads_uint l hl rfl).bind_nil (Reads.pure _)

section

variable {α : Type} {p : Prop} {short long : Nat → Marker} {n : Nat} {hd bs : Bytes} {a : α}
  {f : UInt8 → Reader α} {g : Nat → Reader α} {l m : String}

/-- A reader that goes by the first byte of a header comes to the number that the header holds. -/
lemma Lead.readsIf (h : Lead short long n hd) (hs : ∀ b, Marker.ofByte b = short n → f b = g n)
    (hl : ∀ b width, Marker.ofByte b = long width → f b = uint width m >>= g)
    (hg : ReadsIf p (g n) bs a) : ReadsIf p (byte l >>= f) (hd ++ bs) a := by
  cases h with
  | short hb =>
    refine (reads_byte l _).bind_if ?_
    rwa [hs _ hb]
  | long hb hw hn =>
    refine (reads_byte l _).bind_if ?_
    rw [hl _ _ hb]
    exact (reads_uint m hw hn).bind_if hg

lemma Lead.reads (h : Lead short long n hd) (hs : ∀ b, Marker.ofByte b = short n → f b = g n)
    (hl : ∀ b width, Marker.ofByte b = long width → f b = uint width m >>= g)
    (hg : Reads (g n) bs a) : Reads (byte l >>= f) (hd ++ bs) a :=
  (h.readsIf hs hl hg.readsIf).reads trivial

/-- A reader that goes by the first byte of a number comes to the number. -/
lemma NumberLead.reads {n : Int64} {g : Int64 → α} (h : NumberLead n hd)
    (hs : ∀ b, Marker.ofByte b = .fixint n → f b = pure (g n))
    (hu : ∀ b width, Marker.ofByte b = .uint width →
      f b = Reader.uint width m >>= fun k => pure (g (Int64.ofNat k)))
    (hi : ∀ b width, Marker.ofByte b = .int width →
      f b = Reader.int width m >>= fun k => pure (g k)) :
    Reads (byte l >>= f) hd (g n) := by
  cases h with
  | short hb =>
    refine (reads_byte l _).bind_nil ?_
    rw [hs _ hb]
    exact Reads.pure _
  | uint hb hw hn =>
    refine (reads_byte l _).bind ?_
    rw [hu _ _ hb, ← hn]
    exact (reads_uint m hw rfl).bind_nil (Reads.pure _)
  | int hb hw hn =>
    refine (reads_byte l _).bind ?_
    rw [hi _ _ hb]
    exact (reads_int m hw hn).bind_nil (Reads.pure _)

lemma reads_double {g : Double → α} (d : Double)
    (hf : f 0xcb = uint 8 m >>= fun k => pure (g ⟨UInt64.ofNat k⟩)) :
    Reads (byte l >>= f) (Item.bytes (.double d)) (g d) := by
  have hd : ofBigEndian (bigEndian 8 d.bits.toNat) = d.bits.toNat :=
    ofBigEndian_bigEndian_of_lt d.bits.toNat_lt
  have hbits : (⟨UInt64.ofNat d.bits.toNat⟩ : Double) = d := by rw [UInt64.ofNat_toNat]
  refine (reads_byte l 0xcb).bind ?_
  rw [hf]
  refine (reads_uint m (length_bigEndian 8 _) hd).bind_nil ?_
  rw [hbits]
  exact Reads.pure _

end

lemma Lead.reads_arrayHeader {n : Nat} {hd : Bytes} (h : Lead .fixarray .array n hd) (l : String) :
    Reads (arrayHeader l) hd n := by
  have hr : Reads (arrayHeader l) (hd ++ []) n := by
    refine h.reads (g := pure) (m := l) (fun b hb => ?_) (fun b w hb => ?_) (Reads.pure n)
    · rw [hb]
    · rw [hb, bind_pure]
  rwa [List.append_nil] at hr

lemma NumberLead.reads_number {n : Int64} {hd : Bytes} (h : NumberLead n hd) (l : String) :
    Reads (number l) hd n := by
  refine h.reads (g := fun n => n) (m := l) (fun b hb => ?_) (fun b w hb => ?_) (fun b w hb => ?_)
  · rw [hb]
    rfl
  · rw [hb]
    rfl
  · rw [hb, bind_pure]
    rfl

end NestedPath
