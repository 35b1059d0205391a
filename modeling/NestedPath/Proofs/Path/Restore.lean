import NestedPath.Proofs.Path.RoundTrip
import NestedPath.Proofs.Path.Sound

/-!
Which of the paths that are read can be written again.

All can but those that hold a blob or a map of just the largest size that is read. On writing a
blob gets a type byte and a map an entry that marks its order, and with it they are too large; on
reading they may come without.
-/

namespace NestedPath

open Reader

namespace Value

/-- The value can be read in a form that is one byte or entry short of what is written for it. -/
def Brimful : Value → Prop
  | blob bytes => bytes.length = Limits.body
  | map es => es.length = Limits.items
  | _ => False

/-- A value that was read is within the limits of writing unless something in it is full. -/
lemma Decoded.limited_iff {v : Value} {room : Nat} (h : v.Decoded room) :
    v.Limited ↔ v.All fun w => ¬ w.Brimful := by
  constructor
  · refine All.mono fun w hw => ?_
    cases w with
    | blob bytes => exact fun h => by simp only [Bounded] at hw; simp only [Brimful] at h; omega
    | map es => exact fun h => by simp only [Bounded] at hw; simp only [Brimful] at h; omega
    | _ => exact not_false
  · intro hb
    refine All.mono (fun w hw => ?_) (all_and.2 ⟨h.admitted, hb⟩)
    cases w <;> simp only [Admitted, Bounded, Brimful] at hw ⊢ <;> omega

end Value

namespace Segment

/-- What every segment has in common that is read under the default limits. -/
def Decoded (s : Segment) : Prop :=
  match s.payload with
  | .literal v => v.Decoded (Limits.depth + 1)
  | .filter p => s.id = Kind.allChildren.id ∧ p.bound = .ok ()

variable {s : Segment}

lemma Decoded.plain (h : s.Decoded) : s.Plain := by
  unfold Decoded at h
  unfold Plain
  cases hs : s.payload with
  | literal v =>
    rw [hs] at h
    exact h.ordered
  | filter p =>
    rw [hs] at h
    exact h.1

lemma Decoded.bound_iff (h : s.Decoded) :
    s.bound = .ok () ↔ ∀ v, s.payload = .literal v → v.All fun w => ¬ w.Brimful := by
  unfold Decoded at h
  unfold bound
  cases hs : s.payload with
  | literal v =>
    rw [hs] at h
    have hd := Nat.le_of_lt_succ h.depth_lt
    rw [Value.bound_eq_ok, h.limited_iff, and_iff_right hd]
    exact ⟨fun hv w hw => by cases hw; exact hv, fun hv => hv v rfl⟩
  | filter p =>
    rw [hs] at h
    exact ⟨fun _ v hv => (by cases hv), fun _ => h.2⟩

lemma Sound.decoded (h : s.Sound .standard) : s.Decoded := by
  have hplain := h.plain
  have hpayload := h.payload
  unfold Decoded
  cases hs : s.payload with
  | literal v =>
    rw [hs] at hpayload
    obtain ⟨hdepth, hadmitted, hordered⟩ := hpayload
    exact ⟨Nat.lt_succ_of_le hdepth, hadmitted, hordered⟩
  | filter p =>
    rw [hs] at hplain hpayload
    exact ⟨hplain rfl, Program.bound_eq_ok.2 (hpayload.1.reads_skip hpayload.2 _)⟩

end Segment

namespace Path

variable {bs : Bytes} {p : Path}

/-- What every path has in common that is read under the default limits. -/
structure Decoded (p : Path) : Prop where
  ne_nil : p ≠ []
  length_le : p.length ≤ Limits.segments
  segments : ∀ s ∈ p, s.Decoded

lemma decoded_of_decode (h : decode .standard bs = .ok p) : p.Decoded := by
  have hp := (yields_read .standard).of_runOn h
  exact ⟨List.length_pos_iff.1 hp.length_pos, hp.length_le, fun s hs => (hp.segments s hs).decoded⟩

/--
A path that was read can be written again just if none of its literals holds a blob or a map of the
largest size that is read, and what is then written is read as the same path.
-/
theorem restorable_iff (h : decode .standard bs = .ok p) :
    ((∃ text, toText p = .ok text) ↔
        ∀ s ∈ p, ∀ v, s.payload = .literal v → v.All fun w => ¬ w.Brimful) ∧
      ∀ text, toText p = .ok text → ofText .standard text = .ok p := by
  have hd := decoded_of_decode h
  constructor
  · constructor
    · rintro ⟨text, ht⟩ s hs
      exact (hd.segments s hs).bound_iff.1 ((toText_eq_ok.1 ht).1.bound s hs)
    · intro hb
      refine ⟨_, toText_eq_ok.2 ⟨⟨hd.ne_nil, hd.length_le, fun s hs => ?_⟩, rfl⟩⟩
      exact (hd.segments s hs).bound_iff.2 (hb s hs)
  · intro text ht
    have hr := ofText_toText_of_plain (w := "") (x := "") (fun s hs => (hd.segments s hs).plain) ht
      (by simp) (by simp)
    rwa [String.empty_append, String.append_empty] at hr

/-- A blob, a map, a number and a float in forms that are read but not written. -/
theorem restores_other_forms :
    ∃ text, toText [.listValue (.list [.blob [7, 8], .map [(.int 1, .int 5)], .float ⟨0⟩])] =
        .ok text ∧
      ofText .standard text =
        .ok [.listValue (.list [.blob [7, 8], .map [(.int 1, .int 5)], .float ⟨0⟩])] := by
  have h : decode .standard
      [0x92, 0x13, 0x93, 0xc4, 2, 7, 8, 0x81, 1, 0xcd, 0, 5, 0xca, 0, 0, 0, 0] =
      .ok [.listValue (.list [.blob [7, 8], .map [(.int 1, .int 5)], .float ⟨0⟩])] := rfl
  obtain ⟨htext, hback⟩ := restorable_iff h
  have hb : ∀ s ∈ [Segment.listValue (.list [.blob [7, 8], .map [(.int 1, .int 5)], .float ⟨0⟩])],
      ∀ v, s.payload = .literal v → v.All fun w => ¬ w.Brimful := by
    intro s hs v hv
    rw [List.mem_singleton.1 hs] at hv
    cases hv
    simp [Value.all_list, Value.all_map, Value.All, Value.Brimful, Limits.body, Limits.items]
  obtain ⟨text, ht⟩ := htext.2 hb
  exact ⟨text, ht, hback text ht⟩

/-! ### A blob that cannot be written again -/

lemma decode_single {s : Segment} (h : Reads (readSegment .standard) bs s) :
    decode .standard ([0x92] ++ bs) = .ok [s] := by
  have hmarker : Marker.ofByte 0x92 = .fixarray 2 := rfl
  have hhead : Lead .fixarray .array (2 * [s].length) [0x92] := .short hmarker
  have hs : ∀ t ∈ [s], Reads (readSegment .standard) bs t := by
    intro t ht
    rwa [List.mem_singleton.1 ht]
  have hd := decode_of_reads hhead (List.cons_ne_nil _ _) (length_single_le s) hs
  rwa [List.flatMap_singleton] at hd

lemma reads_unmarked_blob {n : Nat} {ds body : Bytes} (hds : ds.length = 4)
    (hn : ofBigEndian ds = n) (hbody : body.length = n) (hmax : n ≤ Limits.body) :
    Reads (Value.read Limits.depth) ([0xc6] ++ (ds ++ body)) (.blob body) := by
  have hmarker : Marker.ofByte 0xc6 = .bin 4 := rfl
  have hlimit := (Value.readsIf_limitLength "bytes" n Limits.body).reads hmax
  have hblob : Reads (Value.readBlob n) body (.blob body) :=
    hlimit.bind ((reads_bytes _ hbody).bind_nil (Reads.pure _))
  rw [Value.read, Value.readWithin]
  refine (reads_byte "value" 0xc6).bind ?_
  rw [hmarker]
  exact (reads_uint "bytes length" hds hn).bind hblob

lemma decode_unmarked_blob {n : Nat} {ds body : Bytes} (hds : ds.length = 4)
    (hn : ofBigEndian ds = n) (hbody : body.length = n) (hmax : n ≤ Limits.body) :
    decode .standard ([0x92] ++ ([0x13] ++ ([0xc6] ++ (ds ++ body)))) =
      .ok [.listValue (.blob body)] := by
  have hpayload : Reads (readPayload .standard Segment.Kind.listValue.id)
      ([0xc6] ++ (ds ++ body)) (.literal (.blob body)) := by
    rw [readPayload, if_neg (by decide)]
    exact (reads_unmarked_blob hds hn hbody hmax).bind_nil (Reads.pure _)
  have hsegment : Reads (readSegment .standard) ([0x13] ++ ([0xc6] ++ (ds ++ body)))
      (.listValue (.blob body)) :=
    Segment.reads_segment_of (.short rfl) hpayload
  exact decode_single hsegment

lemma toText_large_blob {body : Bytes} (h : Limits.body < body.length + 1) :
    toText [.listValue (.blob body)] = .error (.tooLong "bytes" (body.length + 1) Limits.body) := by
  have hbound : (Segment.listValue (.blob body)).bound =
      .error (.tooLong "bytes" (body.length + 1) Limits.body) := by
    change Value.boundLength "bytes" (body.length + 1) Limits.body = _
    rw [Value.boundLength, if_pos h]
  have hcheck : check .store [.listValue (.blob body)] =
      .error (.tooLong "bytes" (body.length + 1) Limits.body) := by
    rw [check, if_neg (by simp), if_neg (by rw [List.length_singleton]; decide)]
    change ((Segment.listValue (.blob body)).bound >>= fun _ => _) = _
    rw [hbound]
    rfl
  rw [toText, hcheck]
  rfl

/-- A blob of the largest size that is read, without its type byte, is too large to be written. -/
theorem not_restorable_blob :
    decode .standard
        ([0x92] ++ ([0x13] ++ ([0xc6] ++ ([1, 0, 0, 0] ++ List.replicate Limits.body 0)))) =
        .ok [.listValue (.blob (List.replicate Limits.body 0))] ∧
      toText [.listValue (.blob (List.replicate Limits.body 0))] =
        .error (.tooLong "bytes" (Limits.body + 1) Limits.body) := by
  have hlen : (List.replicate Limits.body (0 : UInt8)).length = Limits.body := List.length_replicate
  refine ⟨decode_unmarked_blob rfl (by decide) hlen (Nat.le_refl _), ?_⟩
  rw [toText_large_blob (by rw [hlen]; exact Nat.lt_succ_self _), hlen]

end Path

end NestedPath
