import NestedPath.Proofs.Expr.Injective
import NestedPath.Proofs.Path.Frame
import NestedPath.Proofs.Path.Grammar
import NestedPath.Proofs.Path.Restore

/-!
The paths of accessors, which are looked at nowhere before they are written.

A look-up in a map and the size of a list are compiled whatever path they go by. The path is read
back from the call just if it could have been written in front of a command, which is checked.
-/

namespace NestedPath

open Reader

namespace Segment

variable {s : Segment}

lemma Decoded.readsIf_payload (h : s.Decoded) :
    ReadsIf (s.bound = .ok ()) (Path.readPayload .standard s.id) (Item.pack s.payload.items)
      s.payload := by
  have hplain := h.plain
  unfold Decoded at h
  cases hs : s.payload with
  | literal v =>
    rw [hs] at h
    have hbound : s.bound = v.bound := by rw [bound, hs]
    rw [hbound]
    exact readsIf_literal hs (Value.sized_of_admitted h.admitted) h.ordered
  | filter p =>
    rw [hs] at h
    have hbound : s.bound = .ok () := by
      rw [bound, hs]
      exact h.2
    have hp := reads_payload hplain hbound
    rw [hs] at hp
    exact hp.readsIf.congr (iff_of_true trivial hbound)

/-- A segment that can be read at all is read from what is written for it if the check allows. -/
lemma Decoded.readsIf (h : s.Decoded) :
    ReadsIf (s.bound = .ok ()) (Path.readSegment .standard) (Item.pack (s.items 0)) s := by
  rw [items, Item.pack_cons, UInt32.or_zero]
  exact readsIf_segment_of (Item.lead_number _) h.readsIf_payload

end Segment

namespace Path

variable {p : Path}

/-! ### Paths that are written without a look -/

lemma readLength_pack (h : 2 * p.length < 1 <<< 32) : readLength (Item.pack (items 0 p)) =
    .ok (2 * p.length) (p.flatMap fun s => Item.pack (s.items 0)) := by
  rw [items_zero, Item.pack_cons, Item.pack_flatMap]
  exact readLength_of_reads ((Item.lead_array h).reads_arrayHeader "context")

/-- What is written for a path is read as the path just if the check before writing allows it. -/
lemma decode_pack_iff (hp : ∀ s ∈ p, s.Plain) :
    decode .standard (Item.pack (items 0 p)) = .ok p ↔ p.Writable := by
  refine ⟨fun h => ?_, decode_pack hp⟩
  -- Whatever its bytes, a path that is read has segments that can be read.
  obtain ⟨hne, hlen, hsegs⟩ := decoded_of_decode h
  have hle : p.length ≤ 256 := hlen
  obtain ⟨n, u, hn, hu⟩ := bind_eq_ok.1 (decode_eq_ok.1 h)
  rw [readLength_pack (by omega)] at hn
  cases hn
  rw [unless_eq_ok, unless_eq_ok, unless_eq_ok, Nat.mul_div_cancel_left _ (by decide)] at hu
  have hrun := ReadsIf.times p (fun s hs => (hsegs s hs).readsIf) []
  refine ⟨hne, hlen, (hrun.eq_ok_iff (s := [])).1 ?_⟩
  rw [List.append_nil]
  exact hu.2.2.2

/-- A path with too many segments is refused as a whole, whatever its segments are. -/
lemma decode_of_long (h : Limits.segments < p.length) (hcount : 2 * p.length < 1 <<< 32) :
    decode .standard (Item.pack (items 0 p)) = .error (.tooLong "context" p.length 256) := by
  have hmax : ReadLimits.standard.segments < p.length := h
  have hread : read .standard (Item.pack (items 0 p)) = .error (.tooLong "context" p.length 256)
      (p.flatMap fun s => Item.pack (s.items 0)) := by
    rw [read, bind_of_ok (readLength_pack hcount), if_neg (by omega), if_neg (by omega),
      Nat.mul_div_cancel_left _ (by decide), if_pos hmax]
    rfl
  exact runOn_of_error hread

lemma check_of_long {task : Task} (h : Limits.segments < p.length) :
    check task p = .error (.tooLong "context" p.length 256) := by
  have hne : ¬ p.isEmpty := by
    intro he
    rw [List.isEmpty_iff.1 he] at h
    cases h
  rw [check, if_neg hne, if_pos h]
  rfl

end Path

namespace Expr

/-! ### Accessors -/

/-- An accessor by a path, the kind that it returns, and what is written behind the path. -/
inductive Accesses (path : Path) : Expr → ValueKind → List Item → Prop
  | mapGet (returns : MapReturn) (kind : ValueKind) (key map : Expr) :
      Accesses path (mapGet returns kind key map path) kind
        ([.array 3, .number 97, .nat returns.code] ++ key.items ++ map.items)
  | listSize (list : Expr) :
      Accesses path (listSize list path) .int ([.array 1, .number 16] ++ list.items)

/-- What stands in front of the path of an accessor: the start of the call and the code of paths. -/
def accessorHead (kind : ValueKind) : List Item :=
  [.array 5, .nat 127, .nat kind.code, .nat collections.toNat, .array 3, .nat Path.frameCode]

variable {path : Path} {e : Expr} {kind : ValueKind} {rest : List Item}

/-- The path stands between a start that tells only the kind and the command that it leads to. -/
lemma pack_call (hne : path ≠ []) (command : Int64) (args is : List Item) (n : Nat) :
    Item.pack
        (callHeader kind collections (Item.pack (commandItems path command n ++ args)) ++ is) =
      Item.pack (accessorHead kind) ++ (Item.pack (Path.items 0 path) ++
        Item.pack ([.array (n + 1), .number command] ++ args ++ is)) := by
  have hprefix : prefixItems path = [.array 3, .nat Path.frameCode] ++ Path.items 0 path :=
    if_neg fun h => hne (List.isEmpty_iff.1 h)
  have hhead : accessorHead kind =
      [.array 5, .nat 127, .nat kind.code, .nat collections.toNat] ++
        [.array 3, .nat Path.frameCode] := rfl
  have hcall (payload : Bytes) : callHeader kind collections payload ++ is =
      [.array 5, .nat 127, .nat kind.code, .nat collections.toNat] ++ .packed payload :: is := rfl
  rw [hcall, Item.pack_append, pack_payload, commandItems_eq, hprefix, hhead]
  simp only [Item.pack_append, List.append_assoc]

lemma Accesses.compile_bytes (h : e.Accesses path kind rest) (hne : path ≠ []) :
    e.compile.bytes = Item.pack (accessorHead kind) ++
      (Item.pack (Path.items 0 path) ++ Item.pack rest) := by
  cases h with
  | mapGet returns kind key map =>
    rw [compile, items, List.append_assoc (commandItems path 97 2), pack_call hne]
    rfl
  | listSize list =>
    have hpack := @pack_call path .int hne 16 [] list.items 0
    rw [List.append_nil] at hpack
    rw [compile, items, hpack]
    rfl

/--
An accessor is compiled around its path, whatever that is. The path is read back from there just if
writing it in front of a command would not be refused, and then it can also be told where it ends.
-/
theorem Accesses.path_read_iff (h : e.Accesses path kind rest) (hne : path ≠ [])
    (hp : ∀ s ∈ path, s.Built) :
    e.compile.bytes = Item.pack (accessorHead kind) ++
        (Item.pack (Path.items 0 path) ++ Item.pack rest) ∧
      (∀ (w : Writer) (flag : UInt32) (command : Int64) (args : Nat),
        Path.decode .standard (Item.pack (Path.items 0 path)) = .ok path ↔
          ∃ w', w.writeFrame flag command args path = (.ok (), w')) ∧
      ∀ l, Path.decode .standard (Item.pack (Path.items 0 path)) = .ok path →
        Reads (object (Limits.depth + 2) l) (Item.pack (Path.items 0 path))
          (Item.pack (Path.items 0 path)) := by
  have hiff : Path.decode .standard (Item.pack (Path.items 0 path)) = .ok path ↔ path.Writable :=
    Path.decode_pack_iff fun s hs => (hp s hs).plain
  refine ⟨h.compile_bytes hne, fun w flag command args => ?_, fun l hread => ?_⟩
  · rw [hiff]
    constructor
    · intro hw
      exact ⟨_, Writer.writeFrame_eq_ok.2 ⟨hw, rfl⟩⟩
    · rintro ⟨w', hw⟩
      exact (Writer.writeFrame_eq_ok.1 hw).1
  · have hw := hiff.1 hread
    exact reads_object_of_nests (hw.packable.nests 0) hw.nesting_le

/-- The entry of a key in the map that another key leads to. -/
theorem path_read_iff_nested_map :
    (mapGet .value .int (.literal (.string "qty")) (bin "m" .map)
        [.mapKey (.string "inner")]).compile.bytes =
      [0x95, 0x7f, 2, 0, 0x93, 0xcc, 0xff] ++
        ([0x92, 0x22, 0xa6, 3, 0x69, 0x6e, 0x6e, 0x65, 0x72] ++
          [0x93, 0x61, 7, 0xa4, 3, 0x71, 0x74, 0x79, 0x93, 0x51, 5, 0xa1, 0x6d]) ∧
      ∃ w', Writer.empty.writeFrame 0 97 2 [.mapKey (.string "inner")] = (.ok (), w') := by
  have hb : ∀ s ∈ ([.mapKey (.string "inner")] : Path), s.Built := by
    intro s hs
    rw [List.mem_singleton.1 hs]
    exact .mapKey _ (.string "inner")
  obtain ⟨hbytes, hframe, -⟩ := Accesses.path_read_iff
    (.mapGet .value .int (.literal (.string "qty")) (bin "m" .map)) (List.cons_ne_nil _ _) hb
  have hpath : Item.pack (Path.items 0 [.mapKey (.string "inner")]) =
      [0x92, 0x22, 0xa6, 3, 0x69, 0x6e, 0x6e, 0x65, 0x72] := by
    simp only [Path.items_zero, List.flatMap_cons, Segment.items, Segment.mapKey,
      Segment.Payload.items, Value.items]
    rfl
  refine ⟨?_, (hframe .empty 0 97 2).1 ?_⟩
  · rw [hbytes, hpath]
    simp only [items, literalItems, Value.items]
    rfl
  · rw [hpath]
    rfl

/-- A path of one segment too many is compiled into an accessor all the same. -/
theorem not_path_read_257 :
    (listSize (bin "l" .list) (List.replicate 257 (.listIndex 0))).compile.bytes =
      [0x95, 0x7f, 2, 0, 0x93, 0xcc, 0xff] ++
        (Item.pack (Path.items 0 (List.replicate 257 (.listIndex 0))) ++
          [0x91, 0x10, 0x93, 0x51, 4, 0xa1, 0x6c]) ∧
      Path.decode .standard (Item.pack (Path.items 0 (List.replicate 257 (.listIndex 0)))) =
        .error (.tooLong "context" 257 256) ∧
      Writer.empty.writeFrame 0 16 0 (List.replicate 257 (.listIndex 0)) =
        (.error (.tooLong "context" 257 256), .empty) := by
  have hlen : (List.replicate 257 (Segment.listIndex 0)).length = 257 := List.length_replicate
  have hlong : Limits.segments < (List.replicate 257 (Segment.listIndex 0)).length := by
    rw [hlen]
    decide
  have hsize : Accesses (List.replicate 257 (.listIndex 0)) _ .int _ := .listSize (bin "l" .list)
  have hbytes := hsize.compile_bytes (List.cons_ne_nil _ _)
  have hcheck := @Path.check_of_long _ .frame hlong
  have hdecode := Path.decode_of_long hlong (by omega)
  rw [hlen] at hcheck hdecode
  refine ⟨?_, hdecode, ?_⟩
  · rw [hbytes, items]
    rfl
  · rw [Writer.writeFrame, Path.frame, hcheck]
    rfl

end Expr

end NestedPath
