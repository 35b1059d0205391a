import NestedPath.Proofs.Elements
import NestedPath.Proofs.Path.Nesting
import NestedPath.Proofs.Pending

/-!
What writing a path does to a writer: nothing if the path is refused, and otherwise one object more,
which reads as a list of ids and payloads.

The payloads are taken out whole, so each of them must end by itself; the flag goes to the last id
and touches no other byte.
-/

namespace NestedPath

open Reader

/-! ### Pairs of an id and a payload -/

namespace Reader

def pair (max : Nat) (l : String) : Reader (Int64 × Bytes) := do
  let n ← number l
  let o ← object max l
  return (n, o)

/-- The count of a list and the pairs in it, with nothing behind the list. -/
def pairs (max : Nat) (l : String) : Reader (Nat × List (Int64 × Bytes)) := do
  let n ← arrayHeader l
  let ps ← times (pair max l) (n / 2) []
  atEnd
  return (n, ps)

def packPair (q : Int64 × Bytes) : Bytes := Item.bytes (.number q.1) ++ q.2

variable {max : Nat} {l : String} {q : Int64 × Bytes} {ps : List (Int64 × Bytes)} {hd : Bytes}

lemma reads_pair (h : Reads (object max l) q.2 q.2) : Reads (pair max l) (packPair q) q :=
  ((Item.lead_number q.1).reads_number l).bind (h.bind_nil (Reads.pure q))

lemma pairs_flatMap (hn : Lead .fixarray .array (2 * ps.length) hd)
    (h : ∀ q ∈ ps, Reads (object max l) q.2 q.2) :
    pairs max l (hd ++ ps.flatMap packPair) = .ok (2 * ps.length, ps) [] := by
  have hps := Reads.times ps (fun q hq => reads_pair (h q hq)) []
  rw [List.append_nil] at hps
  rw [pairs, bind_of_ok (hn.reads_arrayHeader l _), Nat.mul_div_cancel_left _ (by decide),
    bind_of_ok hps]
  rfl

end Reader

namespace Segment

/-- The bytes of a literal, or those of a filter as they are. -/
def Payload.bytes : Payload → Bytes
  | literal v => v.pack
  | filter p => p.bytes

lemma Payload.pack_items (payload : Payload) : Item.pack payload.items = payload.bytes := by
  cases payload with
  | literal v => rfl
  | filter p => exact List.append_nil _

/-- The id with a flag merged into it, and the payload. -/
def pair (flag : UInt32) (s : Segment) : Int64 × Bytes :=
  (Int64.ofNat (s.id ||| flag).toNat, s.payload.bytes)

lemma pack_items (flag : UInt32) (s : Segment) :
    Item.pack (s.items flag) = packPair (s.pair flag) := by
  rw [items, Item.pack_cons, Payload.pack_items]
  rfl

/-- Within bounds the payload can be taken out whole; the map marker may need one level more. -/
lemma reads_payload_bytes {s : Segment} (h : s.bound = .ok ()) (l : String) :
    Reads (object (Limits.depth + 1) l) s.payload.bytes s.payload.bytes := by
  rw [← Payload.pack_items]
  exact reads_object_of_nests (packable_of_bound h).nests_payload (nesting_le_of_bound h)

end Segment

/-! ### Paths -/

namespace Path

def pairs (flag : UInt32) (p : Path) : List (Int64 × Bytes) :=
  p.dropLast.map (Segment.pair 0) ++ p.getLast?.toList.map (Segment.pair flag)

variable {p : Path} {s : Segment} {flag : UInt32}

lemma pairs_concat (flag : UInt32) (p : Path) (s : Segment) :
    pairs flag (p ++ [s]) = p.map (Segment.pair 0) ++ [s.pair flag] := by
  simp [pairs]

lemma length_pairs (flag : UInt32) (p : Path) : (pairs flag p).length = p.length := by
  rcases List.eq_nil_or_concat' p with rfl | ⟨p, s, rfl⟩
  · rfl
  · simp [pairs_concat]

lemma exists_of_mem_pairs {q : Int64 × Bytes} (h : q ∈ pairs flag p) :
    ∃ s ∈ p, ∃ flag', s.pair flag' = q := by
  rcases List.mem_append.1 h with h | h
  · obtain ⟨s, hs, rfl⟩ := List.mem_map.1 h
    exact ⟨s, List.dropLast_subset p hs, 0, rfl⟩
  · obtain ⟨s, hs, rfl⟩ := List.mem_map.1 h
    exact ⟨s, List.mem_of_getLast? (Option.mem_toList.1 hs), flag, rfl⟩

/-- All ids stand as they are but the last, which has the flag merged into it. -/
lemma getElem?_pairs {i : Nat} (h : i < p.length) :
    (pairs flag p)[i]? = some (p[i].pair (if i + 1 = p.length then flag else 0)) := by
  rcases List.eq_nil_or_concat' p with rfl | ⟨p, s, rfl⟩
  · cases h
  · rw [pairs_concat, List.length_append, List.length_singleton]
    rw [List.length_append, List.length_singleton] at h
    rcases Nat.lt_or_ge i p.length with hi | hi
    · have hmap : i < (p.map (Segment.pair 0)).length := by rwa [List.length_map]
      rw [if_neg (by omega), List.getElem?_append_left hmap, List.getElem_append_left hi,
        List.getElem?_map, List.getElem?_eq_getElem hi, Option.map_some]
    · obtain rfl : i = p.length := by omega
      simp

lemma pack_items (flag : UInt32) (p : Path) : Item.pack (items flag p) =
    Item.bytes (.array (2 * p.length)) ++ (pairs flag p).flatMap packPair := by
  rw [items, Item.pack_cons, Item.pack_append, Item.pack_flatMap, Item.pack_flatMap, pairs,
    List.flatMap_append, List.flatMap_map, List.flatMap_map]
  simp only [Segment.pack_items]

/-- The bytes around the last id are the same for all flags. -/
lemma exists_pack_items (h : p.getLast? = some s) : ∃ start tail, ∀ flag,
    Item.pack (items flag p) = start ++ (Item.bytes (.nat (s.id ||| flag).toNat) ++ tail) := by
  obtain ⟨p, rfl⟩ := List.getLast?_eq_some_iff.1 h
  refine ⟨Item.bytes (.array (2 * (p ++ [s]).length)) ++ (p.map (Segment.pair 0)).flatMap packPair,
    s.payload.bytes, fun flag => ?_⟩
  rw [pack_items, pairs_concat, List.flatMap_append, List.flatMap_singleton, List.append_assoc]
  rfl

lemma encode_eq_ok {is : List Item} : encode flag p = .ok is ↔ p.Writable ∧ items flag p = is := by
  rw [encode, check_bind_eq_ok]

/-- A path within bounds is read back pair by pair. -/
lemma Writable.pairs_pack (h : p.Writable) (flag : UInt32) (l : String) :
    Reader.pairs (Limits.depth + 1) l (Item.pack (items flag p)) =
      .ok (2 * p.length, pairs flag p) [] := by
  have hlen : p.length ≤ 256 := h.length_le
  have hn : Lead .fixarray .array (2 * (pairs flag p).length)
      (Item.bytes (.array (2 * p.length))) := by
    rw [length_pairs]
    exact Item.lead_array (by omega)
  have hp : ∀ q ∈ pairs flag p, Reads (object (Limits.depth + 1) l) q.2 q.2 := by
    intro q hq
    obtain ⟨s, hs, flag', rfl⟩ := exists_of_mem_pairs hq
    exact Segment.reads_payload_bytes (h.bound s hs) l
  have hread := pairs_flatMap hn hp
  rwa [length_pairs, ← pack_items] at hread

end Path

/-! ### Writers -/

namespace Writer

variable {w w' : Writer} {flag : UInt32} {p : Path}

lemma attempt_eq_ok {items : Except EncodeError (List Item)} :
    w.attempt items = (.ok (), w') ↔ ∃ is, items = .ok is ∧ w.write is = w' := by
  constructor
  · intro h
    unfold attempt at h
    split at h
    · cases h
      exact ⟨_, rfl, rfl⟩
    · cases h
  · rintro ⟨is, rfl, rfl⟩
    rfl

/-- Items that are refused leave the writer as it was. -/
lemma attempt_eq_error {items : Except EncodeError (List Item)} {e : EncodeError}
    (h : w.attempt items = (.error e, w')) : w' = w := by
  unfold attempt at h
  split at h
  · cases h
  · cases h
    rfl

lemma writePath_eq_error {e : EncodeError} (h : w.writePath flag p = (.error e, w')) : w' = w :=
  attempt_eq_error h

lemma writePath_eq_ok : w.writePath flag p = (.ok (), w') ↔ p.Writable ∧
    w' = ⟨w.bytes ++ Item.pack (Path.items flag p), completeOne w.pending⟩ := by
  have hwrite := @write_of_completes w _ (p.completes_items flag)
  rw [writePath, attempt_eq_ok]
  constructor
  · rintro ⟨is, his, rfl⟩
    obtain ⟨hp, rfl⟩ := Path.encode_eq_ok.1 his
    exact ⟨hp, hwrite⟩
  · rintro ⟨hp, rfl⟩
    exact ⟨_, Path.encode_eq_ok.2 ⟨hp, rfl⟩, hwrite⟩

/--
A path is written if it is within bounds, and one that is refused leaves the writer as it was. One
that is written counts as one object in the list or map around it, and its bytes are read, with
nothing behind them, as twice the number of its segments and a pair for each: the id, which has the
flag merged into it in the last pair alone, and the bytes of the literal or of the filter. So two
flags make no difference but in the last id.
-/
theorem writePath_framing (w : Writer) (flag : UInt32) (p : Path) (l : String) :
    ((∃ w', w.writePath flag p = (.ok (), w')) ↔ p.Writable) ∧
    (∀ e w', w.writePath flag p = (.error e, w') → w' = w) ∧
    ∀ w', w.writePath flag p = (.ok (), w') → w'.pending = completeOne w.pending ∧
      (∃ bs ps, w'.bytes = w.bytes ++ bs ∧
        Reader.pairs (Limits.depth + 1) l bs = .ok (2 * p.length, ps) [] ∧
        ps.length = p.length ∧ ∀ i (_ : i < p.length), ps[i]? = some
          (Int64.ofNat (if i + 1 = p.length then p[i].id ||| flag else p[i].id).toNat,
            p[i].payload.bytes)) ∧
      ∃ start tail s, p.getLast? = some s ∧ ∀ flag', w.writePath flag' p =
        (.ok (), ⟨w.bytes ++ (start ++ (Item.bytes (.nat (s.id ||| flag').toNat) ++ tail)),
          completeOne w.pending⟩) := by
  refine ⟨⟨?_, ?_⟩, fun e w' h => writePath_eq_error h, fun w' h => ?_⟩
  · rintro ⟨w', h⟩
    exact (writePath_eq_ok.1 h).1
  · intro hw
    exact ⟨_, writePath_eq_ok.2 ⟨hw, rfl⟩⟩
  obtain ⟨hw, rfl⟩ := writePath_eq_ok.1 h
  refine ⟨rfl, ⟨_, Path.pairs flag p, rfl, hw.pairs_pack flag l, Path.length_pairs flag p, ?_⟩, ?_⟩
  · intro i hi
    rw [Path.getElem?_pairs hi, Segment.pair]
    split
    · rfl
    · rw [UInt32.or_zero]
  · have hlast : p.getLast? = some (p.getLast hw.ne_nil) := List.getLast?_eq_some_getLast hw.ne_nil
    obtain ⟨start, tail, hpack⟩ := Path.exists_pack_items hlast
    refine ⟨start, tail, _, hlast, fun flag' => ?_⟩
    rw [← hpack]
    exact writePath_eq_ok.2 ⟨hw, rfl⟩

/-- A path of two segments, as the first of the two elements of a list. -/
theorem writePath_framing_in_list : ∃ w' bs ps,
    (⟨[0x92], [2]⟩ : Writer).writePath 0x40 [.mapKey (.string "a"), .allChildren] = (.ok (), w') ∧
      w'.pending = [1] ∧ w'.bytes = [0x92] ++ bs ∧ Reader.pairs 65 "" bs = .ok (4, ps) [] ∧
      ps[0]? = some (0x22, [0xa2, 3, 0x61]) ∧ ps[1]? = some (0x44, [0xc3]) := by
  have hw : Path.Writable [.mapKey (.string "a"), .allChildren] :=
    ⟨List.cons_ne_nil _ _, by decide, List.forall_mem_cons.2 ⟨rfl, List.forall_mem_singleton.2 rfl⟩⟩
  have hwrite : (⟨[0x92], [2]⟩ : Writer).writePath 0x40 _ = (.ok (), _) :=
    writePath_eq_ok.2 ⟨hw, rfl⟩
  obtain ⟨hpending, ⟨bs, ps, hbytes, hread, -, hpairs⟩, -⟩ :=
    (writePath_framing ⟨[0x92], [2]⟩ 0x40 [.mapKey (.string "a"), .allChildren] "").2.2 _ hwrite
  have hkey : (Segment.mapKey (.string "a")).payload.bytes = [0xa2, 3, 0x61] := by
    simp only [Segment.mapKey, Segment.Payload.bytes, Value.pack, Value.items]
    rfl
  refine ⟨_, bs, ps, hwrite, hpending, hbytes, hread, ?_, ?_⟩
  · rw [hpairs 0 (by decide), ← hkey]
    rfl
  · rw [hpairs 1 (by decide)]
    rfl

end Writer

end NestedPath
