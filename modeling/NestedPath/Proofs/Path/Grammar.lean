import NestedPath.Proofs.Packed
import NestedPath.Proofs.Path.RoundTrip
import NestedPath.Proofs.Path.Sound
import NestedPath.Proofs.Truncation

/-!
The grammar of stored paths: the header of a list, and an id and a payload for each segment. What is
read as a path is what the grammar derives, and the path lists the ids and payloads in their order.
-/

namespace NestedPath

open Reader

namespace Segment

/-- The ids that a literal goes with, but for the bits that ask for something to be made. -/
def literalIds : List UInt32 := [0x10, 0x11, 0x13, 0x20, 0x21, 0x22, 0x23]

/--
The bytes of an id and the payload behind it: one object behind the id of a filtered step, and the
bytes of a value behind an id that a literal goes with.
-/
inductive Form (limits : ReadLimits) : UInt32 → Payload → Bytes → Prop
  | filter {hd : Bytes} {o : Packed} (hid : NumberForm 0x04 hd) (ho : o.WellFormed)
      (hmax : o.levels ≤ limits.depth) : Form limits 0x04 (.filter ⟨o.bytes⟩) (hd ++ o.bytes)
  | literal {id : UInt32} {hd bs : Bytes} {v : Value} (hid : NumberForm id.toNat hd)
      (hkind : id &&& ~~~0xc0 ∈ literalIds) (hv : Value.read limits.depth bs = .ok v []) :
      Form limits id (.literal v) (hd ++ bs)

def parts (s : Segment) : UInt32 × Payload := (s.id, s.payload)

variable {limits : ReadLimits} {id : UInt32} {payload : Payload} {s : Segment} {bs u t : Bytes}

/-! ### Ids -/

lemma Kind.ofId?_eq_some {kind : Kind} :
    Kind.ofId? id = some kind ↔ kind.id = id &&& ~~~createMask := by
  constructor
  · intro h
    have hfind : Kind.all.find? (·.id == id &&& ~~~createMask) = some kind := h
    have hid := List.find?_some hfind
    exact eq_of_beq hid
  · intro h
    rw [ofId?, ← h]
    cases kind <;> rfl

lemma exists_kind : ∀ n ∈ literalIds, ∃ kind : Kind, kind.id = n ∧ kind ≠ .allChildren := by
  simp only [literalIds, List.forall_mem_cons]
  exact ⟨⟨.listIndex, rfl, nofun⟩, ⟨.listRank, rfl, nofun⟩, ⟨.listValue, rfl, nofun⟩,
    ⟨.mapIndex, rfl, nofun⟩, ⟨.mapRank, rfl, nofun⟩, ⟨.mapKey, rfl, nofun⟩,
    ⟨.mapValue, rfl, nofun⟩, fun _ h => absurd h List.not_mem_nil⟩

lemma fits_literal_iff {v : Value} :
    (Payload.literal v).fits id = true ↔ id &&& ~~~0xc0 ∈ literalIds := by
  unfold Payload.fits
  constructor
  · intro h
    split at h
    · rename_i kind hkind
      have hid : kind.id = id &&& ~~~0xc0 := Kind.ofId?_eq_some.1 hkind
      rw [← hid]
      cases kind <;> first | decide | cases h
    · cases h
  · intro h
    obtain ⟨kind, hid, hne⟩ := exists_kind _ h
    rw [Kind.ofId?_eq_some.2 hid]
    cases kind <;> first | rfl | exact absurd rfl hne

lemma Form.fits (h : Form limits id payload bs) : payload.fits id = true := by
  cases h with
  | filter => rfl
  | literal _ hkind _ => exact fits_literal_iff.2 hkind

/-! ### Reading a segment -/

/-- What stands behind an id is an object as it is, or a value. -/
lemma reads_payload_iff : Reads (Path.readPayload limits id) bs payload ↔
    (id = 0x04 ∧ ∃ o : Packed, o.WellFormed ∧ o.levels ≤ limits.depth ∧ o.bytes = bs ∧
      payload = .filter ⟨bs⟩) ∨
    id ≠ 0x04 ∧ ∃ v, Value.read limits.depth bs = .ok v [] ∧ payload = .literal v := by
  have hframed : Framed (Path.readPayload limits id) := Path.framed_readPayload limits id
  constructor
  · intro h
    have h := h []
    rw [List.append_nil] at h
    unfold Path.readPayload at h
    split at h
    · obtain ⟨o, u, ho, h⟩ := bind_eq_ok.1 h
      obtain ⟨rfl, rfl⟩ := pure_eq_ok.1 h
      obtain ⟨o, hwf, hmax, rfl, rfl⟩ := Packed.object_eq_ok_iff.1 ho
      rw [List.append_nil]
      exact .inl ⟨‹_›, o, hwf, hmax, rfl, rfl⟩
    · obtain ⟨v, u, hv, h⟩ := bind_eq_ok.1 h
      obtain ⟨rfl, rfl⟩ := pure_eq_ok.1 h
      exact .inr ⟨‹_›, v, hv, rfl⟩
  · intro h
    refine hframed.reads ?_
    unfold Path.readPayload
    rcases h with ⟨hid, o, hwf, hmax, rfl, rfl⟩ | ⟨hid, v, hv, rfl⟩
    · have ho : object limits.depth "context filter" o.bytes = .ok o.bytes [] :=
        Packed.object_eq_ok_iff.2 ⟨o, hwf, hmax, rfl, (List.append_nil _).symm⟩
      have hid : id = Kind.allChildren.id := hid
      rw [if_pos hid]
      exact bind_of_ok ho
    · have hid : id ≠ Kind.allChildren.id := hid
      rw [if_neg hid]
      exact bind_of_ok hv

lemma Form.reads_payload (h : Form limits id payload bs) : ∃ hd body, bs = hd ++ body ∧
    NumberForm id.toNat hd ∧ Reads (Path.readPayload limits id) body payload := by
  cases h with
  | @filter hd o hid ho hmax =>
    exact ⟨hd, o.bytes, rfl, hid, reads_payload_iff.2 (.inl ⟨rfl, o, ho, hmax, rfl, rfl⟩)⟩
  | @literal id hd body v hid hkind hv =>
    have hne : id ≠ 0x04 := by
      rintro rfl
      revert hkind
      decide
    exact ⟨hd, body, rfl, hid, reads_payload_iff.2 (.inr ⟨hne, v, hv, rfl⟩)⟩

/-- A segment is read from the forms of its id and payload, and from nothing else. -/
lemma reads_segment_iff : Reads (Path.readSegment limits) bs s ↔ Form limits s.id s.payload bs := by
  constructor
  · intro h
    obtain ⟨n, u, hn, hu⟩ := bind_eq_ok.1 (h [])
    rw [List.append_nil] at hn
    obtain ⟨hd, hnumber, rfl⟩ := number_eq_ok.1 hn
    obtain ⟨hrange, hu⟩ := unless_eq_ok.1 hu
    obtain ⟨payload, v, hpayload, hv⟩ := bind_eq_ok.1 hu
    cases hparts : ofParts? (UInt32.ofNat n.toInt.toNat) payload with
    | none =>
      rw [hparts] at hv
      exact absurd hv throw_ne_ok
    | some r =>
      rw [hparts] at hv
      obtain ⟨rfl, rfl⟩ := pure_eq_ok.1 hv
      obtain ⟨hid, rfl⟩ := ofParts?_eq_some.1 hparts
      rw [← hid] at hpayload
      have hn : (r.id.toNat : Int) = n.toInt := by
        rw [hid, UInt32.toNat_ofNat']
        omega
      rw [← hn] at hnumber
      rcases reads_payload_iff.1 ((Path.framed_readPayload limits _).reads hpayload) with
        ⟨h4, o, ho, hmax, rfl, hr⟩ | ⟨hne, v, hv, hr⟩
      · rw [h4] at hnumber ⊢
        rw [hr]
        exact .filter hnumber ho hmax
      · have hfits := r.fits
        rw [hr] at hfits ⊢
        exact .literal hnumber (fits_literal_iff.1 hfits) hv
  · intro h
    obtain ⟨hd, body, rfl, hid, hbody⟩ := h.reads_payload
    exact reads_segment_of (numberLead_iff.2 (by rwa [toInt_id])) hbody

end Segment

namespace Path

variable {limits : ReadLimits} {p : Path} {ps : List (UInt32 × Segment.Payload)} {n : Nat}
  {bs t : Bytes}

/-- The header of a list of twice as many elements as there are segments, and the segments. -/
structure Form (limits : ReadLimits) (ps : List (UInt32 × Segment.Payload)) (bs : Bytes) :
    Prop where
  length_pos : 1 ≤ ps.length
  length_le : ps.length ≤ limits.segments
  bytes : ∃ hd parts, Header .list (2 * ps.length) hd ∧ bs = hd ++ parts.flatten ∧
    List.Forall₂ (fun part p => Segment.Form limits p.1 p.2 part) parts ps

lemma readLength_eq_ok : readLength bs = .ok n t ↔ arrayHeader "context" bs = .ok n t := by
  unfold readLength
  split
  · rename_i h
    rw [h]
    exact ⟨nofun, nofun⟩
  · rfl

lemma readLength_header {hd : Bytes} (h : Header .list n hd) (t : Bytes) :
    readLength (hd ++ t) = .ok n t :=
  readLength_eq_ok.2 (arrayHeader_eq_ok.2 ⟨hd, h, rfl⟩)

/-- The segments of a path are read from a header that counts their ids and payloads. -/
lemma readSegments_eq_ok : readSegments limits bs = .ok p t ↔
    1 ≤ p.length ∧ p.length ≤ limits.segments ∧ ∃ hd parts, Header .list (2 * p.length) hd ∧
      bs = hd ++ (parts.flatten ++ t) ∧ List.Forall₂ (Reads (readSegment limits)) parts p := by
  constructor
  · intro h
    obtain ⟨n, u, hn, hu⟩ := bind_eq_ok.1 h
    obtain ⟨hd, hhd, rfl⟩ := arrayHeader_eq_ok.1 (readLength_eq_ok.1 hn)
    rw [unless_eq_ok, unless_eq_ok, unless_eq_ok] at hu
    obtain ⟨hzero, heven, hmax, hu⟩ := hu
    obtain ⟨hlen, parts, rfl, hparts⟩ := (framed_readSegment limits).times_eq_ok.1 hu
    obtain rfl : n = 2 * p.length := by omega
    exact ⟨by omega, by omega, hd, parts, hhd, rfl, hparts⟩
  · rintro ⟨hpos, hmax, hd, parts, hhd, rfl, hparts⟩
    refine bind_eq_ok.2 ⟨_, _, readLength_header hhd _, ?_⟩
    rw [unless_eq_ok, unless_eq_ok, unless_eq_ok, Nat.mul_div_cancel_left _ (by decide)]
    exact ⟨by omega, by omega, by omega,
      (framed_readSegment limits).times_eq_ok.2 ⟨rfl, parts, rfl, hparts⟩⟩

lemma decode_eq_ok : decode limits bs = .ok p ↔ readSegments limits bs = .ok p [] := by
  rw [decode_eq, runOn_eq_ok]
  constructor
  · rintro ⟨t, h⟩
    obtain ⟨q, u, hq, hu⟩ := bind_eq_ok.1 h
    obtain ⟨⟨⟩, v, hend, hv⟩ := bind_eq_ok.1 hu
    obtain ⟨rfl, -⟩ := atEnd_eq_ok.1 hend
    obtain ⟨rfl, -⟩ := pure_eq_ok.1 hv
    exact hq
  · intro h
    exact ⟨[], bind_of_ok h⟩

lemma decode_iff_form : decode limits bs = .ok p ↔ Form limits (p.map Segment.parts) bs := by
  rw [decode_eq_ok, readSegments_eq_ok]
  simp only [List.append_nil]
  constructor
  · rintro ⟨hpos, hmax, hd, parts, hhd, rfl, hparts⟩
    refine ⟨by rwa [List.length_map], by rwa [List.length_map], hd, parts, ?_, rfl, ?_⟩
    · rwa [List.length_map]
    · rw [List.forall₂_map_right_iff]
      exact hparts.imp fun _ _ => Segment.reads_segment_iff.1
  · rintro ⟨hpos, hmax, hd, parts, hhd, rfl, hparts⟩
    rw [List.length_map] at hpos hmax hhd
    rw [List.forall₂_map_right_iff] at hparts
    exact ⟨hpos, hmax, hd, parts, hhd, rfl, hparts.imp fun _ _ => Segment.reads_segment_iff.2⟩

/-- All that the grammar puts together are parts of segments. -/
lemma Form.exists_path (h : Form limits ps bs) : ∃ p : Path, p.map Segment.parts = ps := by
  obtain ⟨hd, parts, -, -, hparts⟩ := h.bytes
  clear h
  induction hparts with
  | nil => exact ⟨[], rfl⟩
  | @cons part q parts ps hq _ ih =>
    obtain ⟨p, rfl⟩ := ih
    exact ⟨⟨q.1, q.2, hq.fits⟩ :: p, rfl⟩

/--
Bytes are read as a path just if the grammar derives them, and the path lists the ids and payloads
that they are derived from.
-/
theorem decode_iff_derived :
    (∀ p, decode limits bs = .ok p ↔ Form limits (p.map Segment.parts) bs) ∧
      ∀ ps, Form limits ps bs → ∃ p, decode limits bs = .ok p ∧ p.map Segment.parts = ps := by
  refine ⟨fun p => decode_iff_form, fun ps h => ?_⟩
  obtain ⟨p, rfl⟩ := h.exists_path
  exact ⟨p, decode_iff_form.2 h, rfl⟩

/-- The header and the id may be wider than they need be. -/
theorem decode_iff_derived_wide :
    Form .strict [(0x13, .literal (.int 5))] [0xdc, 0, 2, 0xcd, 0, 0x13, 5] :=
  (decode_iff_derived.1 [.listValue (.int 5)]).1 rfl

end Path

end NestedPath
