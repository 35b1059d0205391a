import NestedPath.Path.Decode
import NestedPath.Proofs.Nesting
import NestedPath.Proofs.Value.Decoded

/-!
What is known of every path that is read, whatever the bytes and the limits.

The path keeps to the limits. The parts of its segments fit, its maps have their keys in order at
every depth, in whatever order these were read, and each of its filters is one object.
-/

namespace NestedPath

open Reader

namespace Segment

variable {limits : ReadLimits} {id : UInt32} {payload : Payload} {s : Segment} {bs t : Bytes}

/-- A value that keeps to the limits with its keys in order, or one object that keeps to them. -/
def Payload.Sound (limits : ReadLimits) : Payload → Prop
  | literal v => v.depth ≤ limits.depth ∧ v.All Value.Admitted ∧ v.Ordered
  | filter p => IsObject p.bytes ∧ p.bytes.levels ≤ limits.depth

/-- What is known of every segment that is read under the limits. -/
structure Sound (limits : ReadLimits) (s : Segment) : Prop where
  known : (Kind.ofId? s.id).isSome = true
  isFilter_iff : s.payload.isFilter = true ↔ Kind.ofId? s.id = some .allChildren
  /-- A filter is read behind the plain id of its kind alone. -/
  plain : s.payload.isFilter = true → s.id = Kind.allChildren.id
  payload : s.payload.Sound limits

lemma Payload.Sound.ofBytes? {f : Program} (h : (Payload.filter f).Sound limits)
    (hmax : limits.depth ≤ Limits.depth) : Program.ofBytes? f.bytes = .ok f := by
  rw [Program.ofBytes?_of_nests h.1.nests, if_pos (Nat.le_trans h.2 hmax)]

/-! ### Made from parts -/

lemma ofParts?_eq_some : ofParts? id payload = some s ↔ s.id = id ∧ s.payload = payload := by
  rw [ofParts?]
  constructor
  · intro h
    split at h
    · cases h
      exact ⟨rfl, rfl⟩
    · cases h
  · rintro ⟨rfl, rfl⟩
    exact dif_pos s.fits

/-! ### Reading a payload -/

/-- What is read is a filter behind one id and a literal behind all others. -/
lemma isFilter_readPayload {q : Payload} (h : Path.readPayload limits id bs = .ok q t) :
    q.isFilter = true ↔ id = Kind.allChildren.id := by
  unfold Path.readPayload at h
  split at h
  · obtain ⟨o, u, -, h⟩ := bind_eq_ok.1 h
    obtain ⟨rfl, -⟩ := pure_eq_ok.1 h
    exact iff_of_true rfl ‹_›
  · obtain ⟨v, u, -, h⟩ := bind_eq_ok.1 h
    obtain ⟨rfl, -⟩ := pure_eq_ok.1 h
    exact iff_of_false Bool.false_ne_true ‹_›

lemma yields_readPayload (limits : ReadLimits) (id : UInt32) :
    Yields (Path.readPayload limits id) (Payload.Sound limits) := by
  unfold Path.readPayload
  split
  · have hobject : Yields (object limits.depth "context filter") fun bs =>
        Payload.Sound limits (.filter ⟨bs⟩) := by
      intro s bs t h
      have hr := (object_eq_ok.1 h).2
      exact ⟨hr.isObject, hr.levels_le⟩
    exact hobject.bind fun bs hbs => Yields.pure hbs
  · have hvalue : Yields (Value.read limits.depth) (Value.Decoded (limits.depth + 1)) :=
      Value.yields_readWithin _ _
    refine hvalue.bind fun v hv => Yields.pure ?_
    exact ⟨Nat.le_of_lt_succ hv.depth_lt, hv.admitted, hv.ordered⟩

/-! ### Reading a segment -/

lemma yields_readSegment (limits : ReadLimits) :
    Yields (Path.readSegment limits) (Sound limits) := by
  refine Yields.after fun n => Yields.unless fun _ => ?_
  have hpayload : Yields (Path.readPayload limits (UInt32.ofNat n.toInt.toNat)) fun payload =>
      payload.Sound limits ∧
        (payload.isFilter = true ↔ UInt32.ofNat n.toInt.toNat = Kind.allChildren.id) :=
    fun s payload t h => ⟨yields_readPayload _ _ _ _ _ h, isFilter_readPayload h⟩
  refine hpayload.bind fun payload hp => ?_
  cases hs : ofParts? (UInt32.ofNat n.toInt.toNat) payload with
  | none => exact Yields.throw _
  | some s =>
    obtain ⟨hid, rfl⟩ := ofParts?_eq_some.1 hs
    rw [← hid] at hp
    exact Yields.pure ⟨s.isSome_kind, s.isFilter_iff, hp.2.1, hp.1⟩

end Segment

namespace Path

variable {limits : ReadLimits} {bs : Bytes} {p : Path}

/-- What is known of every path that is read under the limits. -/
structure Sound (limits : ReadLimits) (p : Path) : Prop where
  length_pos : 1 ≤ p.length
  length_le : p.length ≤ limits.segments
  segments : ∀ s ∈ p, s.Sound limits

lemma yields_read (limits : ReadLimits) : Yields (read limits) (Sound limits) := by
  refine Yields.after fun n => ?_
  refine Yields.unless fun hzero => Yields.unless fun heven => Yields.unless fun hmax => ?_
  refine ((Segment.yields_readSegment limits).times _ [] (by simp)).bind fun p hp => ?_
  obtain ⟨hlen, hp⟩ := hp
  rw [List.length_nil, Nat.zero_add] at hlen
  refine Yields.after fun _ => Yields.pure ⟨?_, ?_, hp⟩
  · omega
  · rw [hlen]
    exact Nat.not_lt.1 hmax

/--
A path that is read keeps to the limits and is sound in all its parts, whatever the bytes. Each of
its filters can be stored by itself, unless the limit of depth is wider than that of storage.
-/
theorem decode_sound (h : decode limits bs = .ok p) :
    p.Sound limits ∧
      (limits.depth ≤ Limits.depth →
        ∀ s ∈ p, ∀ f, s.payload = .filter f → Program.ofBytes? f.bytes = .ok f) := by
  have hp := (yields_read limits).of_runOn h
  refine ⟨hp, fun hmax s hs f hf => ?_⟩
  have hpayload := (hp.segments s hs).payload
  rw [hf] at hpayload
  exact hpayload.ofBytes? hmax

/-- A filter, and a key that is a map whose entries come without a mark and in the wrong order. -/
theorem decode_sound_unsorted :
    ∃ p, decode .strict [0x94, 0x04, 0x92, 1, 0x90, 0x22, 0x82, 2, 0x91, 0xc0, 1, 5] = .ok p ∧
      p = [.children ⟨[0x92, 1, 0x90]⟩,
        .mapKey (.map [(.int 1, .int 5), (.int 2, .list [.nil])])] ∧
      p.Sound .strict ∧ Program.ofBytes? [0x92, 1, 0x90] = .ok ⟨[0x92, 1, 0x90]⟩ := by
  have h : decode .strict [0x94, 0x04, 0x92, 1, 0x90, 0x22, 0x82, 2, 0x91, 0xc0, 1, 5] =
      .ok [.children ⟨[0x92, 1, 0x90]⟩,
        .mapKey (.map [(.int 1, .int 5), (.int 2, .list [.nil])])] := rfl
  obtain ⟨hp, hf⟩ := decode_sound h
  exact ⟨_, h, rfl, hp, hf (by decide) _ List.mem_cons_self _ rfl⟩

end Path

end NestedPath
