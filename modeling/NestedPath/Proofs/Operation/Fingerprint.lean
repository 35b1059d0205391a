import NestedPath.Operation.Basic
import NestedPath.Proofs.Text

/-!
What a fingerprint is taken of tells the kind, the bin and the payload of an operation.

The length of the name marks where the name ends. Only its low four bytes are written, so a name of
`2 ^ 32` bytes or more may pass for a shorter one with a longer payload.
-/

namespace NestedPath

/-- Numerals of one width are alike just if the numbers agree in as many digits. -/
lemma bigEndian_eq_iff {k m n : Nat} :
    bigEndian k m = bigEndian k n ↔ m % 1 <<< (8 * k) = n % 1 <<< (8 * k) := by
  constructor
  · intro h
    rw [← ofBigEndian_bigEndian, h, ofBigEndian_bigEndian]
  · intro h
    induction k with
    | zero => rfl
    | succ k ih =>
      rw [place_succ] at h
      have hlow : m % 1 <<< (8 * k) = n % 1 <<< (8 * k) := by
        rw [← Nat.mod_mul_right_mod m _ 256, h, Nat.mod_mul_right_mod]
      have hdigit : m / 1 <<< (8 * k) % 256 = n / 1 <<< (8 * k) % 256 := by
        rw [← Nat.mod_mul_right_div_self, h, Nat.mod_mul_right_div_self]
      have hbyte : UInt8.ofNat (m >>> (8 * k)) = UInt8.ofNat (n >>> (8 * k)) := by
        rw [← UInt8.toNat_inj, UInt8.toNat_ofNat', UInt8.toNat_ofNat', shiftRight_place,
          shiftRight_place]
        exact hdigit
      rw [bigEndian, bigEndian, hbyte, ih hlow]

def Sha256.Collide (m n : Bytes) : Prop := m ≠ n ∧ digest m = digest n

namespace Operation

lemma Kind.code_inj {k l : Kind} (h : k.code = l.code) : k = l := by
  cases k <;> cases l <;> first | rfl | cases h

variable {a b : Operation}

/--
The code and the four bytes of the length have their places; behind them the name and the payload
are one run of bytes, and nothing but the length parts them.
-/
lemma preimage_eq_iff : a.preimage = b.preimage ↔ a.kind = b.kind ∧
    a.bin.utf8ByteSize % 1 <<< 32 = b.bin.utf8ByteSize % 1 <<< 32 ∧
    utf8 a.bin ++ a.payload = utf8 b.bin ++ b.payload := by
  rw [preimage, preimage, List.cons.injEq, List.append_assoc, List.append_assoc]
  constructor
  · rintro ⟨hcode, h⟩
    obtain ⟨hlen, hrest⟩ := List.append_inj h (by rw [length_bigEndian, length_bigEndian])
    exact ⟨Kind.code_inj hcode, bigEndian_eq_iff.1 hlen, hrest⟩
  · rintro ⟨hkind, hlen, hrest⟩
    rw [hkind, bigEndian_eq_iff.2 hlen, hrest]
    exact ⟨rfl, rfl⟩

/-- Bytes move freely between a payload and a name whose length is a multiple of `2 ^ 32`. -/
theorem preimage_of_long_bin {bin : String} (h : bin.utf8ByteSize % 1 <<< 32 = 0) (kind : Kind)
    (payload : Bytes) : preimage ⟨bin, kind, payload⟩ = preimage ⟨"", kind, utf8 bin ++ payload⟩ :=
  preimage_eq_iff.2 ⟨rfl, h, rfl⟩

/-- With a length that is written in full the name can be cut off in one place only. -/
lemma preimage_inj (ha : a.bin.utf8ByteSize < 1 <<< 32) (hb : b.bin.utf8ByteSize < 1 <<< 32)
    (h : a.preimage = b.preimage) : a = b := by
  obtain ⟨hkind, hlen, hrest⟩ := preimage_eq_iff.1 h
  rw [Nat.mod_eq_of_lt ha, Nat.mod_eq_of_lt hb] at hlen
  obtain ⟨hbin, hpayload⟩ := List.append_inj hrest hlen
  cases a
  cases b
  rw [mk.injEq]
  exact ⟨utf8_inj.1 hbin, hkind, hpayload⟩

/--
Fingerprints are taken of the same bytes just if the operations have the same kind, bin and
payload. So two operations have the same fingerprint just if they are the same or these bytes are
a collision of the digest.
-/
theorem preimage_separates (ha : a.bin.utf8ByteSize < 1 <<< 32)
    (hb : b.bin.utf8ByteSize < 1 <<< 32) :
    (a.preimage = b.preimage ↔ a.kind = b.kind ∧ a.bin = b.bin ∧ a.payload = b.payload) ∧
      (a.fingerprint = b.fingerprint ↔ a = b ∨ Sha256.Collide a.preimage b.preimage) := by
  constructor
  · constructor
    · intro h
      rw [preimage_inj ha hb h]
      exact ⟨rfl, rfl, rfl⟩
    · rintro ⟨hkind, hbin, hpayload⟩
      rw [preimage, preimage, hkind, hbin, hpayload]
  · constructor
    · intro h
      by_cases hpre : a.preimage = b.preimage
      · exact .inl (preimage_inj ha hb hpre)
      · exact .inr ⟨hpre, h⟩
    · rintro (rfl | ⟨-, h⟩)
      · rfl
      · exact h

/-- One byte of the payload moved to the name, and the whole name moved to the payload. -/
theorem preimage_separates_moved_bytes :
    preimage ⟨"ab", .pathRead, [0x63]⟩ ≠ preimage ⟨"abc", .pathRead, []⟩ ∧
      (fingerprint ⟨"ab", .pathRead, [0x63]⟩ = fingerprint ⟨"", .pathRead, [0x61, 0x62, 0x63]⟩ →
        Sha256.Collide (preimage ⟨"ab", .pathRead, [0x63]⟩)
          (preimage ⟨"", .pathRead, [0x61, 0x62, 0x63]⟩)) := by
  have hab : "ab".utf8ByteSize < 1 <<< 32 := by decide
  have habc : "abc".utf8ByteSize < 1 <<< 32 := by decide
  have hempty : "".utf8ByteSize < 1 <<< 32 := by decide
  constructor
  · intro h
    exact absurd ((preimage_separates hab habc).1.1 h).2.1 (by decide)
  · intro h
    exact ((preimage_separates hab hempty).2.1 h).resolve_left (by decide)

end Operation

end NestedPath
