import NestedPath.Proofs.Value.Levels
import NestedPath.Wire.Cursor

/-!
Where objects and values end, read from any place in some bytes.

A reader of objects stops where an object of the grammar stops, and there is one such place at most.
A reader of values stops at the same place. To follow it there a reader of objects must go down
twice as far and one level more, since the object beside the mark of a map's order has the limit to
itself.
-/

namespace NestedPath

open Reader Packed

/-! ### Places in bytes -/

namespace Cursor

variable {α : Type} {r : Reader α} {a : α} {c : Cursor} {data bs rest : Bytes} {start stop : Nat}

/-- The cursor with so many bytes in front of it. -/
def ofPosition (data : Bytes) (n : Nat) : Cursor := ⟨data, data.drop n⟩

lemma position_ofPosition (h : stop ≤ data.length) : (ofPosition data stop).position = stop := by
  simp only [position, ofPosition, List.length_drop]
  omega

/-- A read succeeds as it does on the bytes that are left. -/
lemma read_eq_ok : (ofPosition data start).read r = (.ok a, c) ↔
    r (data.drop start) = .ok a c.rest ∧ c.data = data := by
  obtain ⟨data', rest⟩ := c
  unfold ofPosition read
  cases r (data.drop start) with
  | ok b t =>
    simp only [Prod.mk.injEq, Except.ok.injEq, Cursor.mk.injEq, EStateM.Result.ok.injEq]
    exact ⟨fun h => ⟨⟨h.1, h.2.2⟩, h.2.1.symm⟩, fun h => ⟨h.1.1, h.2.symm, h.1.2⟩⟩
  | error e t => simp

end Cursor

namespace Packed

variable {data bs rest : Bytes} {start stop stop' : Nat} {o o' : Packed}

/-- The bytes between two positions are an object. -/
structure Spans (data : Bytes) (start stop : Nat) (o : Packed) : Prop where
  stop_le : stop ≤ data.length
  wellFormed : o.WellFormed
  bytes_eq : o.bytes = (data.take stop).drop start

lemma drop_of_append (h : data.drop start = bs ++ rest) :
    rest = data.drop (start + bs.length) := by
  rw [← List.drop_drop, h, List.drop_left]

/-- An object stands between two positions if the bytes from the first on begin with it. -/
lemma spans_iff : Spans data start stop o ↔ o.WellFormed ∧
    data.drop start = o.bytes ++ data.drop stop ∧ stop = start + o.bytes.length := by
  constructor
  · rintro ⟨hle, ho, hbytes⟩
    have hpos := List.length_pos_iff.2 ho.isObject.ne_nil
    have hlen : o.bytes.length = stop - start := by
      rw [hbytes, List.length_drop, List.length_take, Nat.min_eq_left hle]
    have htake : start ≤ (data.take stop).length := by
      rw [List.length_take]
      omega
    refine ⟨ho, ?_, by omega⟩
    rw [hbytes, ← List.drop_append_of_le_length htake, List.take_append_drop]
  · rintro ⟨ho, hdrop, rfl⟩
    have hpos := List.length_pos_iff.2 ho.isObject.ne_nil
    have hlen := congrArg List.length hdrop
    rw [List.length_drop, List.length_append] at hlen
    refine ⟨by omega, ho, ?_⟩
    rw [List.drop_take, hdrop, Nat.add_sub_cancel_left, List.take_left]

lemma Spans.unique (h : Spans data start stop o) (h' : Spans data start stop' o') :
    stop = stop' ∧ o = o' := by
  obtain ⟨ho, hdrop, rfl⟩ := spans_iff.1 h
  obtain ⟨ho', hdrop', rfl⟩ := spans_iff.1 h'
  obtain ⟨rfl, -⟩ := ho.append_inj ho' (hdrop.symm.trans hdrop')
  exact ⟨rfl, rfl⟩

end Packed

/-! ### Objects -/

namespace Cursor

variable {data bs : Bytes} {start max : Nat} {l : String} {c : Cursor}

/-- What is read is an object, and the cursor then stands where it ends. -/
lemma read_object_eq_ok : (ofPosition data start).read (object max l) = (.ok bs, c) ↔
    ∃ stop o, Spans data start stop o ∧ o.levels ≤ max ∧ o.bytes = bs ∧
      c = ofPosition data stop := by
  rw [read_eq_ok, object_eq_ok_iff]
  constructor
  · rintro ⟨⟨o, ho, hmax, rfl, hdrop⟩, rfl⟩
    have hrest := drop_of_append hdrop
    rw [hrest] at hdrop
    refine ⟨_, o, spans_iff.2 ⟨ho, hdrop, rfl⟩, hmax, rfl, ?_⟩
    rw [ofPosition, ← hrest]
  · rintro ⟨stop, o, hspan, hmax, rfl, rfl⟩
    obtain ⟨ho, hdrop, -⟩ := spans_iff.1 hspan
    exact ⟨⟨o, ho, hmax, rfl, hdrop⟩, rfl⟩

/--
From any position a reader of objects comes to just those positions up to which there is one object
of the grammar, no part of which lies deeper than the limit. There is one such position at most,
and the bytes up to it are what is read.
-/
theorem read_object_iff_spans (data : Bytes) (start max : Nat) (l : String) :
    (∀ stop, (∃ bs c, (ofPosition data start).read (object max l) = (.ok bs, c) ∧
        c.position = stop) ↔
      ∃ o, Spans data start stop o ∧ ∀ k d, Lies inner k o d → k ≤ max) ∧
    (∀ stop stop' o o', Spans data start stop o → Spans data start stop' o' →
      stop = stop' ∧ o = o') ∧
    ∀ bs c, (ofPosition data start).read (object max l) = (.ok bs, c) →
      bs = c.sliceFrom start ∧ c = ofPosition data c.position := by
  refine ⟨fun stop => ⟨?_, ?_⟩, fun _ _ _ _ => Spans.unique, fun bs c h => ?_⟩
  · rintro ⟨bs, c, h, rfl⟩
    obtain ⟨stop, o, hspan, hmax, rfl, rfl⟩ := read_object_eq_ok.1 h
    rw [position_ofPosition hspan.stop_le]
    exact ⟨o, hspan, levels_le_iff.1 hmax⟩
  · rintro ⟨o, hspan, hmax⟩
    exact ⟨o.bytes, _, read_object_eq_ok.2 ⟨stop, o, hspan, levels_le_iff.2 hmax, rfl, rfl⟩,
      position_ofPosition hspan.stop_le⟩
  · obtain ⟨stop, o, hspan, -, rfl, rfl⟩ := read_object_eq_ok.1 h
    rw [sliceFrom, position_ofPosition hspan.stop_le]
    exact ⟨hspan.bytes_eq, rfl⟩

set_option maxRecDepth 2000 in
/-- The list that begins at the second byte ends before the last one, and nowhere else. -/
theorem read_object_iff_spans_list :
    (ofPosition [7, 0x92, 0xc0, 0xd4, 1, 2, 9] 1).read (object 1 "") =
        (.ok [0x92, 0xc0, 0xd4, 1, 2], ofPosition [7, 0x92, 0xc0, 0xd4, 1, 2, 9] 6) ∧
      (∃ o, Spans [7, 0x92, 0xc0, 0xd4, 1, 2, 9] 1 6 o ∧ ∀ k d, Lies inner k o d → k ≤ 1) ∧
      ∀ stop o, Spans [7, 0x92, 0xc0, 0xd4, 1, 2, 9] 1 stop o → stop = 6 := by
  have hread : (ofPosition [7, 0x92, 0xc0, 0xd4, 1, 2, 9] 1).read (object 1 "") =
      (.ok [0x92, 0xc0, 0xd4, 1, 2], ofPosition [7, 0x92, 0xc0, 0xd4, 1, 2, 9] 6) := rfl
  obtain ⟨hiff, hunique, -⟩ := read_object_iff_spans [7, 0x92, 0xc0, 0xd4, 1, 2, 9] 1 1 ""
  obtain ⟨o, hspan, hdeep⟩ := (hiff 6).1 ⟨_, _, hread, rfl⟩
  exact ⟨hread, ⟨o, hspan, hdeep⟩, fun stop o' h => (hunique _ _ _ _ h hspan).1⟩

end Cursor

/-! ### Values -/

namespace Packed

variable {o : Packed}

/-- The object within so many lists of one element. -/
def boxed : Nat → Packed → Packed
  | 0, o => o
  | n + 1, o => .branch .list [0x91] [boxed n o]

lemma WellFormed.boxed (h : o.WellFormed) (n : Nat) : (boxed n o).WellFormed := by
  induction n with
  | zero => exact h
  | succ n ih => exact .branch header_list_one rfl (List.forall_mem_singleton.2 ih)

lemma bytes_boxed_succ (n : Nat) (o : Packed) :
    (boxed (n + 1) o).bytes = [0x91] ++ (boxed n o).bytes := by
  rw [boxed, bytes, List.flatMap_singleton]

lemma levels_boxed (n : Nat) (o : Packed) : (boxed n o).levels = n + o.levels := by
  induction n with
  | zero => rw [boxed, Nat.zero_add]
  | succ n ih =>
    rw [boxed, levels, List.map_singleton, ih]
    simp only [levelsOver, List.map_cons, List.map_nil, List.foldr_cons, List.foldr_nil]
    omega

/-- An empty map in so many lists, with an object as deep as the limit beside the mark of order. -/
def deepest (max : Nat) : Packed :=
  boxed max (.branch .map [0x81] [.leaf [0xc7, 0, 1], boxed max (.leaf [0xc0])])

lemma wellFormed_deepest (max : Nat) : (deepest max).WellFormed := by
  have hbeside := (WellFormed.leaf .nil).boxed max
  refine (WellFormed.branch header_map_one rfl ?_).boxed max
  exact List.forall_mem_cons.2
    ⟨.leaf (.ext extForm_keyOrdered), List.forall_mem_singleton.2 hbeside⟩

lemma levels_deepest (max : Nat) : (deepest max).levels = 2 * max + 1 := by
  rw [deepest, levels_boxed, levels, List.map_cons, List.map_singleton, levels_boxed, levels,
    levels]
  simp only [levelsOver, List.map_cons, List.map_nil, List.foldr_cons, List.foldr_nil]
  omega

end Packed

namespace Value

variable {o : Packed} {v : Value} {max room : Nat}

/-- Within a list an object is read if there is room for one level more. -/
lemma exists_readWithin_boxed (h : readWithin max room o.bytes = .ok v []) (n : Nat) :
    ∃ w, readWithin max (room + n) (boxed n o).bytes = .ok w [] := by
  induction n with
  | zero => exact ⟨v, h⟩
  | succ n ih =>
    obtain ⟨w, hw⟩ := ih
    have hlen : 1 ≤ (boxed n o).bytes.length := by
      have := (framed_takes_readWithin max (room + n)).2 _ _ _ hw
      rwa [List.length_nil, Nat.zero_add] at this
    have htimes : times (readWithin max (room + n)) 1 [] (boxed n o).bytes = .ok [w] [] :=
      times_succ_eq_ok.2 ⟨w, [], [], hw, rfl, rfl⟩
    refine ⟨.list [w], ?_⟩
    rw [bytes_boxed_succ]
    refine (readWithin_list header_list_one max _ _).trans ?_
    exact readList_eq_ok.2 ⟨by decide, hlen, [w], htimes, rfl⟩

lemma exists_read_deepest (max : Nat) : ∃ v, read max (deepest max).bytes = .ok v [] := by
  obtain ⟨hf, ht⟩ := framed_takes_readWithin max 0
  have hbeside : (boxed max (.leaf [0xc0])).levels ≤ max := by
    rw [levels_boxed, levels]
    exact Nat.le_refl _
  have hmark := OrderMark.some extForm_keyOrdered ((WellFormed.leaf .nil).boxed max) hbeside
  have hmap : readWithin max 1 (Packed.branch .map [0x81]
      [.leaf [0xc7, 0, 1], boxed max (.leaf [0xc0])]).bytes = .ok (.map []) [] := by
    rw [Packed.bytes, List.flatMap_cons, List.flatMap_singleton, Packed.bytes]
    refine (readWithin_map header_map_one max _ _).trans ?_
    exact (readMap_iff_parts hf ht (unmarked_readWithin max 0)).2 ⟨by decide, 1, _, [], [], [],
      hmark, rfl, by simp, .nil, rfl, List.Pairwise.nil, List.Perm.refl _⟩
  obtain ⟨v, hv⟩ := exists_readWithin_boxed hmap max
  rw [Nat.add_comm] at hv
  exact ⟨v, hv⟩

end Value

namespace Cursor

/--
Where a value is read, an object is read from the same bytes if there may be twice as many levels
and one more. For every limit there are bytes for which no fewer levels will do.
-/
theorem read_value_is_object (max : Nat) (l : String) :
    (∀ data start v c, (ofPosition data start).read (Value.read max) = (.ok v, c) →
      (ofPosition data start).read (object (2 * max + 1) l) = (.ok (c.sliceFrom start), c)) ∧
    ∃ data v c, (ofPosition data 0).read (Value.read max) = (.ok v, c) ∧
      ∀ bs c', (ofPosition data 0).read (object (2 * max) l) ≠ (.ok bs, c') := by
  constructor
  · intro data start v c h
    obtain ⟨hread, rfl⟩ := read_eq_ok.1 h
    obtain ⟨o, ho, hdrop⟩ := Value.exists_within hread
    have hmax := ho.levels_lt
    have hrest := drop_of_append hdrop
    rw [hrest] at hdrop
    have hobject : (ofPosition c.data start).read (object (2 * max + 1) l) = (.ok o.bytes, c) := by
      refine read_object_eq_ok.2 ⟨_, o, spans_iff.2 ⟨ho.wellFormed, hdrop, rfl⟩, by omega, rfl, ?_⟩
      rw [ofPosition, ← hrest]
    rw [hobject, ← ((read_object_iff_spans c.data start _ l).2.2 _ _ hobject).1]
  · -- Fewer levels would be those of another tree, and the bytes have only one.
    obtain ⟨v, hv⟩ := Value.exists_read_deepest max
    refine ⟨(deepest max).bytes, v, ⟨_, []⟩, read_eq_ok.2 ⟨hv, rfl⟩, fun bs c' h => ?_⟩
    obtain ⟨stop, o, hspan, hlevels, -, -⟩ := read_object_eq_ok.1 h
    obtain ⟨ho, hdrop, -⟩ := spans_iff.1 hspan
    obtain ⟨rfl, -⟩ := (wellFormed_deepest max).append_inj ho (s := []) (by rwa [List.append_nil])
    rw [levels_deepest] at hlevels
    omega

set_option maxRecDepth 2000 in
/-- A list beside the mark of an empty map, which stands in a list and behind another byte. -/
theorem read_value_is_object_beside :
    (ofPosition [7, 0x91, 0x81, 0xc7, 0, 1, 0x91, 0xc0, 9] 1).read (Value.read 1) =
        (.ok (.list [.map []]), ofPosition [7, 0x91, 0x81, 0xc7, 0, 1, 0x91, 0xc0, 9] 8) ∧
      (ofPosition [7, 0x91, 0x81, 0xc7, 0, 1, 0x91, 0xc0, 9] 1).read (object 3 "") =
        (.ok [0x91, 0x81, 0xc7, 0, 1, 0x91, 0xc0],
          ofPosition [7, 0x91, 0x81, 0xc7, 0, 1, 0x91, 0xc0, 9] 8) := by
  have hread : (ofPosition [7, 0x91, 0x81, 0xc7, 0, 1, 0x91, 0xc0, 9] 1).read (Value.read 1) =
      (.ok (.list [.map []]), ofPosition [7, 0x91, 0x81, 0xc7, 0, 1, 0x91, 0xc0, 9] 8) := rfl
  exact ⟨hread, (read_value_is_object 1 "").1 _ _ _ _ hread⟩

end Cursor

end NestedPath
