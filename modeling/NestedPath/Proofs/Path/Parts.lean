import NestedPath.Proofs.Path.Injective
import NestedPath.Proofs.Path.Sound

/-!
Segments made from their parts, and the same parts read back.

Parts fit together or not by the kind that the id stands for, but on reading the whole id says what
the payload is to be. So a filter whose id asks for something to be made goes with its kind and is
written, but it is read as a literal, which does not.
-/

namespace NestedPath

open Reader

namespace Segment

namespace Payload

/-- Every map in the payload was built by insertions. -/
def Built : Payload → Prop
  | literal v => v.Built
  | filter _ => True

def bound : Payload → Except EncodeError Unit
  | literal v => v.bound
  | filter p => p.bound

end Payload

variable {id : UInt32} {payload : Payload} {s : Segment} {bs t : Bytes}

lemma bound_payload (s : Segment) : s.bound = s.payload.bound := by
  unfold bound Payload.bound
  cases s.payload <;> rfl

/-! ### Reading a payload -/

/-- A payload is read back behind the ids that ask for what it is. -/
lemma readPayload_eq_ok (hp : payload.Built) (hb : payload.bound = .ok ()) :
    Path.readPayload .standard id (Item.pack payload.items) = .ok payload [] ↔
      (payload.isFilter = true ↔ id = Kind.allChildren.id) := by
  refine ⟨isFilter_readPayload, fun h => ?_⟩
  unfold Path.readPayload
  cases payload with
  | literal v =>
    have hid : id ≠ Kind.allChildren.id := fun hid => Bool.false_ne_true (h.2 hid)
    have ho := Value.Built.ordered hp
    have hv : Value.read Limits.depth (v.pack ++ []) = .ok v [] :=
      (Value.read_pack_eq_ok ho Limits.depth []).2 (Value.bound_eq_ok.1 hb)
    rw [List.append_nil] at hv
    rw [if_neg hid]
    exact bind_of_ok hv
  | filter p =>
    have ho := object_eq_ok.2 ⟨(List.append_nil p.bytes).symm, Program.bound_eq_ok.1 hb⟩
    rw [if_pos (h.1 rfl), Payload.items, Item.pack_cons, Item.pack_nil, List.append_nil]
    exact bind_of_ok ho

/-- A segment is read from its parts. -/
lemma readSegment_eq_ok : Path.readSegment .standard (Item.bytes (.nat id.toNat) ++ bs) = .ok s t ↔
    s.id = id ∧ Path.readPayload .standard id bs = .ok s.payload t := by
  have hlt : id.toNat < 1 <<< 32 := id.toNat_lt
  have hid := toInt_id id
  have hn : Reads (number "context id") (Item.bytes (.nat id.toNat)) (Int64.ofNat id.toNat) :=
    (Item.lead_number _).reads_number _
  rw [Path.readSegment, bind_of_ok (hn bs), if_neg (by omega), hid, Int.toNat_natCast,
    UInt32.ofNat_toNat, bind_eq_ok]
  constructor
  · rintro ⟨q, u, hq, h⟩
    cases hs : ofParts? id q with
    | none =>
      rw [hs] at h
      exact absurd h throw_ne_ok
    | some s' =>
      rw [hs] at h
      obtain ⟨rfl, rfl⟩ := pure_eq_ok.1 h
      obtain ⟨rfl, rfl⟩ := ofParts?_eq_some.1 hs
      exact ⟨rfl, hq⟩
  · rintro ⟨rfl, hq⟩
    refine ⟨s.payload, t, hq, ?_⟩
    rw [ofParts?_eq_some.2 ⟨rfl, rfl⟩]
    rfl

end Segment

namespace Path

open Segment

/-- The bytes of a path of one segment, whether or not its parts fit. -/
def packParts (id : UInt32) (payload : Payload) : Bytes :=
  Item.pack (.array 2 :: .nat id.toNat :: payload.items)

variable {id : UInt32} {payload : Payload} {s : Segment} {p : Path}

lemma items_single (s : Segment) : Item.pack (items 0 [s]) = packParts s.id s.payload := by
  rw [items_zero, List.flatMap_singleton, Segment.items, UInt32.or_zero]
  rfl

/-- A single segment is read if its payload is read as one that goes with the id. -/
lemma decode_packParts_eq_ok : decode .standard (packParts id payload) = .ok p ↔
    ∃ s, p = [s] ∧ s.id = id ∧
      readPayload .standard id (Item.pack payload.items) = .ok s.payload [] := by
  have hhead : Reads (arrayHeader "context") (Item.bytes (.array 2)) 2 :=
    (Item.lead_array (by decide)).reads_arrayHeader _
  have hread : read .standard (packParts id payload) = (readSegment .standard >>= fun s =>
      atEnd >>= fun _ => pure [s]) (Item.bytes (.nat id.toNat) ++ Item.pack payload.items) := by
    rw [packParts, Item.pack_cons, Item.pack_cons, read, bind_of_ok (readLength_of_reads hhead),
      if_neg (by decide), if_neg (by decide), if_neg (by decide), times, bind_assoc]
    rfl
  constructor
  · intro h
    obtain ⟨t, hp⟩ := runOn_eq_ok.1 h
    rw [hread] at hp
    obtain ⟨s, u, hs, hp⟩ := bind_eq_ok.1 hp
    obtain ⟨⟨⟩, v, hend, hp⟩ := bind_eq_ok.1 hp
    obtain ⟨rfl, -⟩ := pure_eq_ok.1 hp
    rw [(atEnd_eq_ok.1 hend).1] at hs
    exact ⟨s, rfl, readSegment_eq_ok.1 hs⟩
  · rintro ⟨s, rfl, hs⟩
    rw [decode, runOn, hread, bind_of_ok (readSegment_eq_ok.2 hs)]
    rfl

/--
Parts within bounds are read back just if they make a segment, save that a filter is read behind
the plain id of its kind alone. The segment is written as its parts in any case; with a filter
behind another id it is never read again.
-/
theorem decode_packParts_iff (hp : payload.Built) (hb : payload.bound = .ok ()) (id : UInt32) :
    (∀ s, decode .standard (packParts id payload) = .ok [s] ∧ s.payload = payload ↔
      ofParts? id payload = some s ∧ (payload.isFilter = true → id = Kind.allChildren.id)) ∧
    ∀ s, ofParts? id payload = some s →
      (∃ w, Writer.empty.writePath 0 [s] = (.ok (), w) ∧ w.bytes = packParts id payload) ∧
      (payload.isFilter = true → id ≠ Kind.allChildren.id →
        ∀ p, decode .standard (packParts id payload) ≠ .ok p) := by
  refine ⟨fun s => ⟨?_, ?_⟩, fun s hs => ⟨?_, ?_⟩⟩
  · rintro ⟨h, rfl⟩
    obtain ⟨s', hs, hid, hr⟩ := decode_packParts_eq_ok.1 h
    cases hs
    exact ⟨ofParts?_eq_some.2 ⟨hid, rfl⟩, ((readPayload_eq_ok hp hb).1 hr).1⟩
  · rintro ⟨hs, hf⟩
    obtain ⟨rfl, rfl⟩ := ofParts?_eq_some.1 hs
    have hiff : s.payload.isFilter = true ↔ s.id = Kind.allChildren.id :=
      ⟨hf, fun hid => isFilter_eq (t := .allChildren) hid⟩
    exact ⟨decode_packParts_eq_ok.2 ⟨s, rfl, rfl, (readPayload_eq_ok hp hb).2 hiff⟩, rfl⟩
  · obtain ⟨rfl, rfl⟩ := ofParts?_eq_some.1 hs
    rw [← bound_payload] at hb
    rw [← items_single]
    exact (writable_single hb).writePath 0
  · -- Behind such an id a literal is read, but the kind of the id has none.
    intro hf hid p h
    obtain ⟨s', -, hid', hr⟩ := decode_packParts_eq_ok.1 h
    obtain ⟨rfl, rfl⟩ := ofParts?_eq_some.1 hs
    rw [← isFilter_eq hid'] at hf
    exact hid ((isFilter_readPayload hr).1 hf)

/-- An index in a list that is to be made, and all children. -/
theorem decode_packParts_made_list :
    decode .standard [0x92, 0xcc, 0xd0, 7] = .ok [.listIndexCreate 7 .ordered false] ∧
    decode .standard [0x92, 4, 0xc3] = .ok [.allChildren] := by
  have hint : (Payload.literal (.int 7)).Built := .int 7
  have hfilter : (Payload.filter .always).Built := trivial
  have hlist := decode_packParts_iff hint rfl 0xd0
  have hall := decode_packParts_iff hfilter rfl 4
  have hbytes : packParts 0xd0 (.literal (.int 7)) = [0x92, 0xcc, 0xd0, 7] := by
    rw [packParts, Payload.items, Value.items]
    rfl
  have hbytes' : packParts 4 (.filter .always) = [0x92, 4, 0xc3] := rfl
  rw [hbytes] at hlist
  rw [hbytes'] at hall
  have hnot : (Payload.literal (.int 7)).isFilter = true → (0xd0 : UInt32) = Kind.allChildren.id :=
    fun h => absurd h Bool.false_ne_true
  exact ⟨((hlist.1 _).2 ⟨rfl, hnot⟩).1, ((hall.1 _).2 ⟨rfl, fun _ => rfl⟩).1⟩

/-- All children of a list that is to be made are written but not read. -/
theorem not_decode_created_filter : ∃ s, ofParts? 0x44 (.filter .always) = some s ∧
    Writer.empty.writePath 0 [s] = (.ok (), ⟨[0x92, 0x44, 0xc3], []⟩) ∧
    decode .standard [0x92, 0x44, 0xc3] = .error (.segmentId 0x44) :=
  ⟨_, rfl, rfl, rfl⟩

end Path

end NestedPath
