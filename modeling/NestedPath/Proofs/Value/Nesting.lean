import NestedPath.Proofs.Nesting

/-!
How deep the bytes of a value nest.

This is the depth of the value itself, save that on the wire a map is never empty: the entry that
marks its order adds a level to a map without entries.
-/

namespace NestedPath.Value

/--
The levels of lists and maps in the bytes of a value. In front of its entries a map holds the two
objects that mark its order.
-/
def nesting : Value → Nat
  | list vs => levelsOver (vs.map fun v => v.nesting)
  | map es => levelsOver (0 :: 0 :: es.flatMap fun e => [e.1.nesting, e.2.nesting])
  | _ => 0
termination_by v => sizeOf v
decreasing_by
  · have := List.sizeOf_lt_of_mem ‹v ∈ vs›
    simp only [list.sizeOf_spec]
    omega
  · exact sizeOf_fst_lt ‹e ∈ es›
  · exact sizeOf_snd_lt ‹e ∈ es›

variable {v : Value}

lemma Scalar.nesting_eq (h : v.Scalar) : v.nesting = 0 := by
  cases v <;> first | exact h.elim | simp [nesting]

lemma Scalar.nests_pack (h : v.Scalar) (hs : v.Sized) : Nests [v.nesting] v.pack := by
  have hb := h.all_iff.1 hs
  rw [h.nesting_eq, pack]
  have hone {i : Item} (hi : i.Sized) (hl : i.Leaf) : Nests [0] (Item.pack [i]) := by
    rw [Item.pack_cons, Item.pack_nil, List.append_nil]
    exact Item.nests hi hl
  have hbody {type : UInt8} {body : Bytes} (hl : body.length + 1 ≤ 0xffffffff) :
      Nests [0] (Item.pack [.particle type body]) :=
    hone (Nat.lt_succ_of_le hl) trivial
  cases v with
  | list vs => exact h.elim
  | map es => exact h.elim
  | string s =>
    rw [items]
    exact hbody (by rwa [length_utf8])
  | blob bytes =>
    rw [items]
    exact hbody hb
  | geo json =>
    rw [items]
    exact hbody (by rwa [length_utf8])
  | _ =>
    rw [items]
    exact hone trivial trivial

/-- The bytes of a value are one object, as deep as the value says. -/
lemma nests_pack (hs : v.Sized) : Nests [v.nesting] v.pack := by
  induction v with
  | list vs ih =>
    obtain ⟨hlen, hvs⟩ := all_list.1 hs
    have hn : vs.length < 1 <<< 32 := Nat.lt_succ_of_le hlen
    have helements : Nests (vs.map nesting) (vs.flatMap pack) :=
      Nests.map fun v hv => ih v hv (hvs v hv)
    have hhead : Lead .fixarray .array (vs.map nesting).length (Item.bytes (.array vs.length)) := by
      rw [List.length_map]
      exact Item.lead_array hn
    rw [nesting, pack_list]
    exact Nests.array hhead helements
  | map es ih =>
    obtain ⟨hlen, hes⟩ := all_map.1 hs
    have hn : es.length + 1 < 1 <<< 32 := Nat.lt_succ_of_le hlen
    have hentries : Nests (es.flatMap fun e => [e.1.nesting, e.2.nesting])
        (es.flatMap packEntry) :=
      Nests.flatMap fun e he => ((ih e he).1 (hes e he).1).append ((ih e he).2 (hes e he).2)
    -- The mark of the order and the nil beside it are two objects more, without levels.
    have hmark : Nests [0] (Item.bytes (.ext keyOrdered)) := Item.nests trivial trivial
    have hbeside : Nests [0] (Item.bytes .nil) := Item.nests trivial trivial
    rw [nesting, pack_map]
    refine Nests.pairs (Item.lead_map hn) ?_ (hmark.append (hbeside.append hentries))
    have htwo : (es.flatMap fun e => [e.1.nesting, e.2.nesting]).length = 2 * es.length := by
      simp [List.length_flatMap, List.map_const', Nat.mul_comm]
    change (es.flatMap fun e => [e.1.nesting, e.2.nesting]).length + 2 = _
    omega
  | _ =>
    refine Scalar.nests_pack ?_ hs
    trivial

lemma isObject_pack (hs : v.Sized) : Reader.IsObject v.pack :=
  Reader.isObject_iff.2 ⟨_, nests_pack hs⟩

lemma nesting_le_depth (v : Value) : v.nesting ≤ v.depth + 1 := by
  induction v with
  | list vs ih =>
    rw [nesting, levelsOver_le, List.forall_mem_map]
    intro v hv
    have hlt : v.depth < (list vs).depth := depth_list_lt.1 (Nat.lt_succ_self _) v hv
    have := ih v hv
    omega
  | map es ih =>
    rw [nesting, levelsOver_le]
    have hlt (e) (he : e ∈ es) := depth_map_lt.1 (Nat.lt_succ_self (map es).depth) e he
    simp only [List.mem_cons, List.mem_flatMap, List.not_mem_nil, or_false]
    rintro d (rfl | rfl | ⟨e, he, rfl | rfl⟩)
    · exact Nat.zero_le _
    · exact Nat.zero_le _
    · have := (ih e he).1
      have := (hlt e he).1
      omega
    · have := (ih e he).2
      have := (hlt e he).2
      omega
  | _ =>
    rw [Scalar.nesting_eq (by trivial)]
    exact Nat.zero_le _

end NestedPath.Value
