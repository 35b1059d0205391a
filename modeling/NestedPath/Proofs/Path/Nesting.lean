import NestedPath.Proofs.Path.Injective
import NestedPath.Proofs.Value.Nesting

/-!
How deep the bytes of a path nest: one level for the list of its segments and the levels of the
deepest payload, which the check before writing keeps within bounds.
-/

namespace NestedPath

open Reader

namespace Segment

variable {s : Segment}

def Payload.nesting : Payload → Nat
  | literal v => v.nesting
  | filter p => p.bytes.levels

lemma Packable.nests_payload (h : s.Packable) :
    Nests [s.payload.nesting] (Item.pack s.payload.items) := by
  unfold Packable at h
  cases hs : s.payload with
  | literal v =>
    rw [hs] at h
    exact Value.nests_pack h
  | filter p =>
    rw [hs] at h
    rw [Payload.items, Item.pack_cons, Item.pack_nil, List.append_nil]
    exact IsObject.nests h

/-- A segment is written as two objects, its id and its payload. -/
lemma Packable.nests (h : s.Packable) (flag : UInt32) :
    Nests [0, s.payload.nesting] (Item.pack (s.items flag)) := by
  rw [items]
  exact Item.nests_nat _ h.nests_payload

/-! ### Segments that pass the check before writing -/

lemma packable_of_bound (h : s.bound = .ok ()) : s.Packable := by
  unfold bound at h
  unfold Packable
  cases hs : s.payload with
  | literal v =>
    rw [hs] at h
    exact (Value.bound_eq_ok.1 h).2.sized
  | filter p =>
    rw [hs] at h
    exact (Program.bound_eq_ok.1 h).isObject

lemma nesting_le_of_bound (h : s.bound = .ok ()) : s.payload.nesting ≤ Limits.depth + 1 := by
  unfold bound at h
  cases hs : s.payload with
  | literal v =>
    rw [hs] at h
    have hd := (Value.bound_eq_ok.1 h).1
    exact Nat.le_trans v.nesting_le_depth (Nat.succ_le_succ hd)
  | filter p =>
    rw [hs] at h
    exact Nat.le_succ_of_le (Program.bound_eq_ok.1 h).levels_le

end Segment

namespace Path

variable {p : Path}

def nesting (p : Path) : Nat := levelsOver (p.flatMap fun s => [0, s.payload.nesting])

lemma nests_segments (h : ∀ s ∈ p, s.Packable) (flag : UInt32) :
    Nests (p.flatMap fun s => [0, s.payload.nesting])
      (Item.pack (p.flatMap (Segment.items flag))) := by
  rw [Item.pack_flatMap]
  exact Nests.flatMap fun s hs => (h s hs).nests flag

/-- The bytes of a path are one object, whatever flag goes to its last segment. -/
lemma Packable.nests (h : p.Packable) (flag : UInt32) :
    Nests [p.nesting] (Item.pack (Path.items flag p)) := by
  obtain ⟨hlen, hp⟩ := h
  have hsplit := dropLast_append_getLast? p
  have hp : ∀ s ∈ p.dropLast ++ p.getLast?.toList, s.Packable := by rwa [hsplit]
  have hinit := nests_segments (fun s hs => hp s (List.mem_append_left _ hs)) 0
  have hlast := nests_segments (fun s hs => hp s (List.mem_append_right _ hs)) flag
  have hall := Item.nests_append hinit hlast
  rw [← List.flatMap_append, hsplit] at hall
  have hcount : (p.flatMap fun s => [0, s.payload.nesting]).length = 2 * p.length := by
    simp [List.length_flatMap, List.map_const', Nat.mul_comm]
  exact Item.nests_array hcount hlen hall

lemma Writable.packable (h : p.Writable) : p.Packable := by
  have hlen : p.length ≤ 256 := h.length_le
  exact ⟨by omega, fun s hs => Segment.packable_of_bound (h.bound s hs)⟩

lemma Writable.isObject (h : p.Writable) (flag : UInt32) : IsObject (Item.pack (items flag p)) :=
  isObject_iff.2 ⟨_, h.packable.nests flag⟩

/-- One level is the path itself; an empty map in a literal may have another on the wire. -/
lemma Writable.nesting_le (h : p.Writable) : p.nesting ≤ Limits.depth + 2 := by
  rw [nesting, levelsOver_le]
  simp only [List.mem_flatMap, List.mem_cons, List.not_mem_nil, or_false]
  rintro d ⟨s, hs, rfl | rfl⟩
  · exact Nat.zero_le _
  · exact Segment.nesting_le_of_bound (h.bound s hs)

end Path

end NestedPath
