import Mathlib.Data.List.Induction
import NestedPath.Proofs.Forms

/-!
Numbers in their shortest form.

Ten forms of a number are read and one of them is written. It is read as the number that it was
written for, whatever stands behind it, and no other form of that number takes fewer bytes.
-/

namespace NestedPath

open Reader

lemma ofBigEndian_lt (ds : Bytes) : ofBigEndian ds < 1 <<< (8 * ds.length) := by
  induction ds using List.reverseRecOn with
  | nil => decide
  | append_singleton ds b ih =>
    have hb := b.toNat_lt
    rw [List.length_append, List.length_singleton, place_succ]
    simp only [ofBigEndian, List.foldl_append, List.foldl_cons, List.foldl_nil] at ih ⊢
    omega

namespace Item

variable {n : Int64} {width : Nat} {hd : Bytes}

/-! ### How long a number is -/

lemma length_number_of_small (hle : -0x20 ≤ n.toInt) (hlt : n.toInt < 0x80) :
    (bytes (.number n)).length = 1 := by
  simp only [bytes, numberBytes, apply_ite List.length, List.length_cons, length_bigEndian]
  split_ifs <;> omega

/-- A number that a numeral of some width can say, with or without a sign, takes no wider one. -/
lemma length_number_le (hw : width ∈ [1, 2, 4, 8])
    (hle : -((1 <<< (8 * width) : Nat) : Int) ≤ n.toInt * 2)
    (hlt : n.toInt < ((1 <<< (8 * width) : Nat) : Int)) :
    (bytes (.number n)).length ≤ width + 1 := by
  simp only [List.mem_cons, List.not_mem_nil, or_false] at hw
  simp only [bytes, numberBytes, apply_ite List.length, List.length_cons, length_bigEndian]
  rcases hw with rfl | rfl | rfl | rfl
  all_goals
    split_ifs <;> omega

end Item

/-! ### The shortest form -/

lemma width_of_unsigned : ∀ p ∈ unsignedForms, p.2 ∈ [1, 2, 4, 8] := by decide

lemma width_of_signed : ∀ p ∈ signedForms, p.2 ∈ [1, 2, 4, 8] := by decide

/-- Of the numerals without a sign only one of eight bytes may be taken for a negative number. -/
lemma bmod_bounds {k width : Nat} (hw : width ∈ [1, 2, 4, 8]) (hk : k < 1 <<< (8 * width)) :
    -((1 <<< (8 * width) : Nat) : Int) ≤ Int.bmod k (1 <<< 64) * 2 ∧
      Int.bmod k (1 <<< 64) < ((1 <<< (8 * width) : Nat) : Int) := by
  have hmod : ((1 <<< 64 : Nat) : Int) = 0x10000000000000000 := rfl
  simp only [List.mem_cons, List.not_mem_nil, or_false] at hw
  simp only [Int.bmod, hmod]
  rcases hw with rfl | rfl | rfl | rfl
  all_goals
    split <;> omega

/-- No form of a number is shorter than the one that is written. -/
lemma NumberForm.length_le {n : Int64} {hd : Bytes} (h : NumberForm n.toInt hd) :
    (Item.bytes (.number n)).length ≤ hd.length := by
  -- The forms are told apart by the number that they denote, which has to be a variable for it.
  generalize hz : n.toInt = z at h
  cases h with
  | @positive b hb =>
    have hb : b.toNat < 0x80 := UInt8.lt_iff_toNat_lt.1 hb
    exact Nat.le_of_eq (Item.length_number_of_small (n := n) (by omega) (by omega))
  | @negative b hb =>
    have hb : 0xe0 ≤ b.toNat := UInt8.le_iff_toNat_le.1 hb
    have hlt := b.toNat_lt
    exact Nat.le_of_eq (Item.length_number_of_small (n := n) (by omega) (by omega))
  | @unsigned b width ds hb hl =>
    have hds := ofBigEndian_lt ds
    rw [hl] at hds
    obtain ⟨hle, hlt⟩ := bmod_bounds (width_of_unsigned _ hb) hds
    rw [← hz] at hle hlt
    rw [List.length_cons, hl]
    exact Item.length_number_le (width_of_unsigned _ hb) hle hlt
  | @signed b width ds hb hl =>
    have hle := Int.le_bmod (x := ofBigEndian ds) (place_pos width)
    have hlt := Int.bmod_lt (x := ofBigEndian ds) (place_pos width)
    rw [List.length_cons, hl]
    exact Item.length_number_le (width_of_signed _ hb) (by omega) (by omega)

/--
The bytes of a number are read as that number, and what stands behind them is left. Whatever is read
as a number is a form that denotes it, and the bytes of the number are no more than that form has.
-/
theorem Reader.number_exact_shortest (l : String) :
    (∀ n s, number l (Item.bytes (.number n) ++ s) = .ok n s) ∧
    ∀ s n t, number l s = .ok n t ↔ ∃ hd, NumberForm n.toInt hd ∧ s = hd ++ t ∧
      (Item.bytes (.number n)).length ≤ hd.length := by
  refine ⟨fun n s => (Item.lead_number n).reads_number l s, fun s n t => ⟨fun h => ?_, ?_⟩⟩
  · obtain ⟨hd, hform, hs⟩ := number_eq_ok.1 h
    exact ⟨hd, hform, hs, hform.length_le⟩
  · rintro ⟨hd, hform, hs, -⟩
    exact number_eq_ok.2 ⟨hd, hform, hs⟩

/-- Eight bytes without a sign that come out negative, for which one byte would do. -/
theorem Reader.number_exact_shortest_wrapped :
    number "" [0xcf, 0xff, 0xff, 0xff, 0xff, 0xff, 0xff, 0xff, 0xfe, 7] = .ok (-2) [7] ∧
      Item.bytes (.number (-2)) = [0xfe] ∧
      ∃ hd, NumberForm (-2) hd ∧
        [0xcf, 0xff, 0xff, 0xff, 0xff, 0xff, 0xff, 0xff, 0xfe, 7] = hd ++ [7] ∧
        (Item.bytes (.number (-2))).length ≤ hd.length := by
  have hread : number "" [0xcf, 0xff, 0xff, 0xff, 0xff, 0xff, 0xff, 0xff, 0xfe, 7] =
      .ok (-2) [7] := rfl
  exact ⟨hread, rfl, ((number_exact_shortest "").2 _ _ _).1 hread⟩

end NestedPath
