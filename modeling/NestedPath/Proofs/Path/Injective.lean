import NestedPath.Proofs.Path.RoundTrip
import NestedPath.Proofs.Value.Injective

/-!
Different paths have different bytes, and neither begins with the other. A filter is written byte
for byte, so this rests on every filter being one packed object.
-/

namespace NestedPath

open Item Reader

namespace Segment

/-! ### Equality -/

instance : LawfulBEq Payload where
  rfl {x} := by
    cases x with
    | literal v => exact beq_self_eq_true v
    | filter p => exact beq_self_eq_true p
  eq_of_beq {x y} h := by
    cases x with
    | literal v =>
      cases y with
      | literal w => exact congrArg Payload.literal (eq_of_beq (a := v) h)
      | filter q => cases h
    | filter p =>
      cases y with
      | literal w => cases h
      | filter q => exact congrArg Payload.filter (eq_of_beq (a := p) h)

lemma eq_of_id_payload {s t : Segment} (hi : s.id = t.id) (hp : s.payload = t.payload) :
    s = t := by
  cases s
  cases t
  cases hi
  cases hp
  rfl

instance : LawfulBEq Segment where
  rfl {s} := by
    change (s.id == s.id && s.payload == s.payload) = true
    simp
  eq_of_beq {s t} h := by
    change (s.id == t.id && s.payload == t.payload) = true at h
    rw [Bool.and_eq_true, beq_iff_eq, beq_iff_eq] at h
    exact eq_of_id_payload h.1 h.2

/-! ### One segment -/

/-- The payload is a literal whose sizes and counts can be written, or one packed object. -/
def Packable (s : Segment) : Prop :=
  match s.payload with
  | .literal v => v.Sized
  | .filter p => IsObject p.bytes

lemma packable_allChildren : allChildren.Packable := ⟨0, "", rfl⟩

variable {s t : Segment}

/-- The id of a segment decides between a literal and a filter. -/
lemma isFilter_eq (h : s.id = t.id) : s.payload.isFilter = t.payload.isFilter := by
  rw [Bool.eq_iff_iff, isFilter_iff, isFilter_iff, h]

lemma separates (hs : s.Packable) (ht : t.Packable) :
    Separates (Segment.items 0) (fun s => s) s t := by
  intro bs cs e
  unfold Packable at hs ht
  obtain ⟨hid, e⟩ := pack_cons_inj e ⟨trivial, trivial⟩ ⟨trivial, trivial⟩
  have hlt (s : Segment) : s.id.toNat < 1 <<< 63 := by
    have : s.id.toNat < 1 <<< 32 := s.id.toNat_lt
    omega
  rw [UInt32.or_zero, UInt32.or_zero] at hid
  have hid : s.id = t.id := UInt32.toNat_inj.1 (nat_inj (hlt s) (hlt t) hid)
  -- One id goes with literals only or with filters only.
  have hf := isFilter_eq hid
  cases hps : s.payload with
  | literal v =>
    cases hpt : t.payload with
    | literal w =>
      rw [hps] at hs e
      rw [hpt] at ht e
      obtain ⟨hvw, hst⟩ := Value.separates hs ht _ _ e
      have hp : s.payload = t.payload := by
        rw [hps, hpt]
        exact congrArg Payload.literal hvw
      exact ⟨eq_of_id_payload hid hp, hst⟩
    | filter q =>
      rw [hps, hpt] at hf
      cases hf
  | filter p =>
    cases hpt : t.payload with
    | literal w =>
      rw [hps, hpt] at hf
      cases hf
    | filter q =>
      rw [hps] at hs e
      rw [hpt] at ht e
      obtain ⟨hpq, hst⟩ := pack_packed_inj e hs ht
      have hpq : p = q := by
        cases p
        exact congrArg Program.mk hpq
      exact ⟨eq_of_id_payload hid (by rw [hps, hpt, hpq]), hst⟩

end Segment

namespace Path

/-! ### Whole paths -/

/-- The count of elements and every segment can be written so as to be told apart. -/
def Packable (p : Path) : Prop := 2 * p.length < 1 <<< 32 ∧ ∀ s ∈ p, s.Packable

variable {p q : Path}

lemma separates (hp : p.Packable) (hq : q.Packable) :
    Separates (Path.items 0) (fun p => p) p q := by
  intro bs cs e
  rw [items_zero, items_zero] at e
  obtain ⟨hlen, e⟩ := pack_cons_inj e ⟨hp.1, trivial⟩ ⟨hq.1, trivial⟩
  have hlen : p.length = q.length := Nat.eq_of_mul_eq_mul_left (by decide) (array.inj hlen)
  have hs : ∀ s ∈ p, ∀ t ∈ q, Separates (Segment.items 0) (fun s => s) s t := fun s hs t ht =>
    Segment.separates (hp.2 s hs) (hq.2 t ht)
  obtain ⟨hmap, hst⟩ := Separates.flatMap hs hlen _ _ e
  rw [List.map_id', List.map_id'] at hmap
  exact ⟨hmap, hst⟩

end Path

end NestedPath
