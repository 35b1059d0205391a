import NestedPath.Operation.Build
import NestedPath.Proofs.Elements
import NestedPath.Proofs.Expr.Nesting

/-!
The payloads of operations, taken apart again.

The flags of an operation stand behind its path or program and can be found only because that is
one object. The operation itself decides about the bit that tells a modification from a selection.
-/

namespace NestedPath

open Reader

/-! ### Flag words -/

lemma testBit_applyBit (i : Nat) : applyBit.toNat.testBit i = (i == 2) := by
  have h : applyBit.toNat = 2 ^ 2 := rfl
  rw [h, Nat.testBit_two_pow, Bool.eq_iff_iff, decide_eq_true_eq, beq_iff_eq, eq_comm]

/-- A selection never has the bit of a modification, and keeps all others. -/
lemma Flags.testBit_selectWord (flags : Flags .select) (i : Nat) :
    flags.selectWord.toNat.testBit i = (flags.bits.toNat.testBit i && i != 2) := by
  have hlt : flags.bits.toNat < 2 ^ 32 := flags.bits.toNat_lt
  have hnot : (~~~applyBit).toNat.testBit i = (decide (i < 32) && i != 2) := by
    have h : (~~~applyBit).toNat = 2 ^ 32 - (applyBit.toNat + 1) := rfl
    rw [h, Nat.testBit_two_pow_sub_succ applyBit.toNat_lt, testBit_applyBit]
    rfl
  rw [selectWord, UInt32.toNat_and, Nat.testBit_and, hnot]
  by_cases hi : i < 32
  · simp [hi]
  · have hpow : 2 ^ 32 ≤ 2 ^ i := Nat.pow_le_pow_right (by decide) (Nat.not_lt.1 hi)
    rw [Nat.testBit_lt_two_pow (Nat.lt_of_lt_of_le hlt hpow)]
    rfl

/-- A modification always has its bit, and keeps all others. -/
lemma Flags.testBit_modifyWord (flags : Flags .modify) (i : Nat) :
    flags.modifyWord.toNat.testBit i = (flags.bits.toNat.testBit i || i == 2) := by
  rw [modifyWord, UInt32.toNat_or, Nat.testBit_or, testBit_applyBit]

/-! ### Payloads around a path -/

/-- The elements that selections and modifications begin with. -/
def pathElements (path : Path) (word : UInt32) : List Bytes :=
  [Item.bytes (.nat selectCode), Item.pack (path.items 0), Item.bytes (.nat word.toNat)]

variable {path : Path} {word : UInt32} {max : Nat} {l : String}

lemma selectPayload_eq_ok {flags : Flags .select} {bs : Bytes} :
    selectPayload flags path = .ok bs ↔ path.Writable ∧
      bs = Item.bytes (.array 3) ++ (pathElements path flags.selectWord).flatten := by
  have hpack : Item.pack ([.array 3, .nat selectCode] ++ path.items 0 ++
      [.nat flags.selectWord.toNat]) =
      Item.bytes (.array 3) ++ (pathElements path flags.selectWord).flatten := by
    simp [pathElements, Item.pack_cons, Item.pack_append, Item.pack_nil]
  rw [← hpack, selectPayload, Path.check_bind_eq_ok, eq_comm (a := bs)]

lemma modifyPayload_eq_ok {flags : Flags .modify} {transform : List Item} {bs : Bytes} :
    modifyPayload flags transform path = .ok bs ↔ path.Writable ∧
      bs = Item.bytes (.array 4) ++
        ((pathElements path flags.modifyWord).flatten ++ Item.pack transform) := by
  have hpack : Item.pack ([.array 4, .nat selectCode] ++ path.items 0 ++
      [.nat flags.modifyWord.toNat] ++ transform) = Item.bytes (.array 4) ++
        ((pathElements path flags.modifyWord).flatten ++ Item.pack transform) := by
    simp [pathElements, Item.pack_cons, Item.pack_append]
  rw [← hpack, modifyPayload, Path.check_bind_eq_ok, eq_comm (a := bs)]

lemma isObject_of_mem_pathElements (h : path.Writable) :
    ∀ o ∈ pathElements path word, IsObject o := by
  simp [pathElements, isObject_number, h.isObject 0, Item.nat]

lemma isObject_pathElements {hd : Bytes} {more : List Bytes} (hw : path.Writable)
    (hn : Lead .fixarray .array (more.length + 3) hd) (hm : ∀ o ∈ more, IsObject o) :
    IsObject (hd ++ ((pathElements path word).flatten ++ more.flatten)) := by
  have hn : Lead .fixarray .array (pathElements path word ++ more).length hd := by
    rwa [List.length_append, Nat.add_comm]
  have ho := isObject_flatten hn
    (List.forall_mem_append.2 ⟨isObject_of_mem_pathElements hw, hm⟩)
  rwa [List.flatten_append] at ho

lemma levels_le_of_mem_pathElements (h : path.Writable) :
    ∀ o ∈ pathElements path word, o.levels ≤ Limits.depth + 2 := by
  have hpath : (Item.pack (path.items 0)).levels ≤ Limits.depth + 2 := by
    rw [(h.packable.nests 0).levels_eq]
    exact h.nesting_le
  simp [pathElements, levels_number, hpath, Item.nat]

/--
The elements of a payload are the code of operations on paths, the bytes that are written for the
path by itself, the flag word, and then these.
-/
def HoldsPath (max : Nat) (l : String) (payload : Bytes) (path : Path) (word : UInt32)
    (more : List Bytes) : Prop :=
  ∃ w code flags, Writer.empty.writePath 0 path = (.ok (), w) ∧
    elements max l payload = .ok (code :: w.bytes :: flags :: more) [] ∧
    number l code = .ok 0xfe [] ∧ number l flags = .ok (Int64.ofNat word.toNat) []

lemma holdsPath_flatten {hd : Bytes} (more : List Bytes) (word : UInt32) (l : String)
    (hw : path.Writable) (hn : Lead .fixarray .array (more.length + 3) hd)
    (hmax : Limits.depth + 2 ≤ max) (hm : ∀ o ∈ more, IsObject o ∧ o.levels ≤ max) :
    HoldsPath max l (hd ++ ((pathElements path word).flatten ++ more.flatten)) path word more := by
  have ho : ∀ o ∈ pathElements path word ++ more, IsObject o :=
    List.forall_mem_append.2 ⟨isObject_of_mem_pathElements hw, fun o h => (hm o h).1⟩
  have hroom : ∀ o ∈ pathElements path word ++ more, o.levels ≤ max :=
    List.forall_mem_append.2
      ⟨fun o h => Nat.le_trans (levels_le_of_mem_pathElements hw o h) hmax, fun o h => (hm o h).2⟩
  have hread : elements max l (hd ++ (pathElements path word ++ more).flatten) =
      .ok (pathElements path word ++ more) [] := elements_flatten hn ho hroom
  rw [List.flatten_append] at hread
  obtain ⟨w, hwrite, hbytes⟩ := hw.writePath 0
  refine ⟨w, _, _, hwrite, ?_, number_bytes _ l, number_bytes _ l⟩
  rw [hbytes]
  exact hread

lemma elements_evalPayload {program : Program} (hp : IsObject program.bytes)
    (hmax : program.bytes.levels ≤ max) (bits : UInt32) (l : String) :
    ∃ flags, elements max l (evalPayload program bits) = .ok [program.bytes, flags] [] ∧
      number l flags = .ok (Int64.ofNat bits.toNat) [] := by
  have hpack : evalPayload program bits =
      Item.bytes (.array 2) ++ [program.bytes, Item.bytes (.nat bits.toNat)].flatten := by
    simp [evalPayload, Item.pack_cons, Item.pack_nil, Item.bytes]
  have hn : Lead .fixarray .array 2 (Item.bytes (.array 2)) := Item.lead_array (by decide)
  refine ⟨Item.bytes (.nat bits.toNat), ?_, number_bytes _ l⟩
  rw [hpack]
  exact elements_flatten hn (by simp [hp, isObject_number, Item.nat])
    (by simp [hmax, levels_number, Item.nat])

/-! ### Operations -/

namespace Operation

variable {bin : String} {op : Operation}

lemma select_eq_ok {flags : Flags .select} : select bin flags path = .ok op ↔ path.Writable ∧
    op = ⟨bin, .pathRead,
      Item.bytes (.array 3) ++ (pathElements path flags.selectWord).flatten⟩ := by
  rw [select, except_bind_eq_ok]
  simp only [selectPayload_eq_ok]
  constructor
  · rintro ⟨bs, ⟨hw, rfl⟩, ⟨⟩⟩
    exact ⟨hw, rfl⟩
  · rintro ⟨hw, rfl⟩
    exact ⟨_, ⟨hw, rfl⟩, rfl⟩

lemma modify_eq_ok {flags : Flags .modify} {transform : Program} :
    modify bin flags transform path = .ok op ↔ path.Writable ∧
      op = ⟨bin, .pathModify, Item.bytes (.array 4) ++
        ((pathElements path flags.modifyWord).flatten ++ transform.bytes)⟩ := by
  have hpack : Item.pack [.packed transform.bytes] = transform.bytes := List.append_nil _
  rw [modify, except_bind_eq_ok]
  simp only [modifyPayload_eq_ok, hpack]
  constructor
  · rintro ⟨bs, ⟨hw, rfl⟩, ⟨⟩⟩
    exact ⟨hw, rfl⟩
  · rintro ⟨hw, rfl⟩
    exact ⟨_, ⟨hw, rfl⟩, rfl⟩

lemma exists_select (bin : String) (flags : Flags .select) (h : path.Writable) :
    ∃ op, select bin flags path = .ok op :=
  ⟨_, select_eq_ok.2 ⟨h, rfl⟩⟩

lemma exists_modify (bin : String) (flags : Flags .modify) (transform : Program)
    (h : path.Writable) : ∃ op, modify bin flags transform path = .ok op :=
  ⟨_, modify_eq_ok.2 ⟨h, rfl⟩⟩

/--
The payload of a selection is a list of three elements, of which the flags have the bit of a
modification cleared; that of a modification is one of four with the bit set and the transform
last; and that of an evaluation is one of the program and its flags. All other bits are kept, and
nothing stands behind the list.
-/
theorem elements_payload (hmax : Limits.depth + 2 ≤ max) (l : String) (bin : String)
    (bits : UInt32) (path : Path) :
    (∀ op, select bin (.ofBits bits) path = .ok op → ∃ word,
      HoldsPath max l op.payload path word [] ∧
      ∀ i, word.toNat.testBit i = (bits.toNat.testBit i && i != 2)) ∧
    ∀ transform : Program, IsObject transform.bytes → transform.bytes.levels ≤ max →
      (∀ op, modify bin (.ofBits bits) transform path = .ok op → ∃ word,
        HoldsPath max l op.payload path word [transform.bytes] ∧
        ∀ i, word.toNat.testBit i = (bits.toNat.testBit i || i == 2)) ∧
      ∀ op ∈ [evalRead bin transform (.ofBits bits), evalWrite bin transform (.ofBits bits)],
        ∃ flags, elements max l op.payload = .ok [transform.bytes, flags] [] ∧
          number l flags = .ok (Int64.ofNat bits.toNat) [] := by
  refine ⟨fun op h => ?_, fun transform ht hroom => ⟨fun op h => ?_, ?_⟩⟩
  · obtain ⟨hw, rfl⟩ := select_eq_ok.1 h
    have hn : Lead .fixarray .array 3 (Item.bytes (.array 3)) := Item.lead_array (by decide)
    have hr := holdsPath_flatten [] (Flags.selectWord (.ofBits bits)) l hw hn hmax (by simp)
    rw [List.flatten_nil, List.append_nil] at hr
    exact ⟨_, hr, Flags.testBit_selectWord _⟩
  · obtain ⟨hw, rfl⟩ := modify_eq_ok.1 h
    have hn : Lead .fixarray .array 4 (Item.bytes (.array 4)) := Item.lead_array (by decide)
    have hm : ∀ o ∈ [transform.bytes], IsObject o ∧ o.levels ≤ max := by simp [ht, hroom]
    have hr := holdsPath_flatten [transform.bytes] (Flags.modifyWord (.ofBits bits)) l hw hn hmax hm
    rw [List.flatten_singleton] at hr
    exact ⟨_, hr, Flags.testBit_modifyWord _⟩
  · have hflags := elements_evalPayload ht hroom bits l
    exact List.forall_mem_cons.2 ⟨hflags, List.forall_mem_singleton.2 hflags⟩

theorem elements_payload_all_bits :
    (∃ op word, select "b" (.ofBits 0xffffffff) [.listIndex 0] = .ok op ∧
      HoldsPath 66 "" op.payload [.listIndex 0] word [] ∧
      ∀ i, word.toNat.testBit i = ((0xffffffff : UInt32).toNat.testBit i && i != 2)) ∧
    (∃ op word, modify "b" (.ofBits 0) ⟨[0xc0]⟩ [.listIndex 0] = .ok op ∧
      HoldsPath 66 "" op.payload [.listIndex 0] word [[0xc0]] ∧
      ∀ i, word.toNat.testBit i = ((0 : UInt32).toNat.testBit i || i == 2)) := by
  have hp : Path.Writable [.listIndex 0] := Path.writable_single rfl
  have hall := elements_payload (Nat.le_refl 66) "" "b" 0xffffffff [.listIndex 0]
  have hnone := elements_payload (Nat.le_refl 66) "" "b" 0 [.listIndex 0]
  obtain ⟨op, hop⟩ := exists_select "b" (.ofBits 0xffffffff) hp
  obtain ⟨op', hop'⟩ := exists_modify "b" (.ofBits 0) ⟨[0xc0]⟩ hp
  obtain ⟨word, h⟩ := hall.1 op hop
  obtain ⟨word', h'⟩ := (hnone.2 ⟨[0xc0]⟩ (by decide) (by decide)).1 op' hop'
  exact ⟨⟨op, word, hop, h⟩, ⟨op', word', hop', h'⟩⟩

/-! ### Transforms that are no object -/

/-- The transform is the last element of a modification, whatever it is. -/
lemma isListOf_modify {flags : Flags .modify} {transform : Program}
    (h : modify bin flags transform path = .ok op) :
    IsListOf 4 op.payload ↔ IsObject transform.bytes := by
  obtain ⟨hw, rfl⟩ := modify_eq_ok.1 h
  have hn : Lead .fixarray .array 4 (Item.bytes (.array 4)) := Item.lead_array (by decide)
  exact isListOf_append_iff hn (isObject_of_mem_pathElements hw)

/--
A modification is built around any transform, and is a list of four objects just if that is one. It
is if all that the transform calls with is; a path that has a filter which is no object is refused.
-/
theorem isListOf_modify_compile {flags : Flags .modify} {e : Expr}
    (h : modify bin flags e.compile path = .ok op) :
    (IsListOf 4 op.payload ↔ IsObject e.compile.bytes) ∧
      (e.WellFormed → IsListOf 4 op.payload) ∧
      ∀ s ∈ path, ∀ p, s.payload = .filter p → IsObject p.bytes := by
  refine ⟨isListOf_modify h, fun he => ?_, fun s hs p hp => ?_⟩
  · exact (isListOf_modify h).2 (isObject_iff.2 ⟨_, Expr.nests_items he⟩)
  · have hs := (modify_eq_ok.1 h).1.packable.2 s hs
    rwa [Segment.Packable, hp] at hs

theorem isListOf_modify_removed : ∃ op,
    modify "b" .none (Expr.compile .remove) [.listIndex 0] = .ok op ∧ IsListOf 4 op.payload := by
  have hp : Path.Writable [.listIndex 0] := Path.writable_single rfl
  obtain ⟨op, h⟩ := exists_modify "b" .none (Expr.compile .remove) hp
  refine ⟨op, h, (isListOf_modify_compile h).2.1 ?_⟩
  simp [Expr.WellFormed, Expr.All, Expr.Packable, Expr.CallsObject]

/-- A call with nothing where its payload belongs is built into a modification. -/
theorem not_isListOf_modify_empty_call : ∃ op,
    modify "b" .none (Expr.compile (.call .int 0 [] (.literal .nil))) [.listIndex 0] = .ok op ∧
      ¬ IsListOf 4 op.payload := by
  have hp : Path.Writable [.listIndex 0] := Path.writable_single rfl
  obtain ⟨op, h⟩ := exists_modify "b" .none (Expr.compile (.call .int 0 [] (.literal .nil))) hp
  -- The list counts five elements and holds four.
  have hbytes : (Expr.compile (.call .int 0 [] (.literal .nil))).bytes =
      [0x95, 0x7f, 2, 0, 0xc0] := by
    simp only [Expr.compile, Expr.items, Expr.literalItems, Value.items]
    rfl
  have hn : ¬ IsObject [0x95, 0x7f, 2, 0, 0xc0] := by decide
  rw [← hbytes] at hn
  exact ⟨op, h, fun hl => hn ((isListOf_modify h).1 hl)⟩

end Operation

end NestedPath
