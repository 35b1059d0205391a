import NestedPath.Proofs.Items
import NestedPath.Proofs.Value.Order

/-!
Different values have different bytes, and neither begins with the other. So the bytes of values
tell as much as the order on them: they are the same just where it finds no difference.
-/

namespace NestedPath.Value

open Item

def head : Value → Item
  | nil => .nil
  | bool b => .bool b
  | int n => .number n
  | float d => .double d
  | string s => .particle ParticleType.string.toByte (utf8 s)
  | blob bytes => .particle ParticleType.blob.toByte bytes
  | geo json => .particle ParticleType.geo.toByte (utf8 json)
  | list vs => .array vs.length
  | map es => .map (es.length + 1)

def entryItems (e : Value × Value) : List Item := e.1.items ++ e.2.items

def tail : Value → List Item
  | list vs => vs.flatMap items
  | map es => .ext keyOrdered :: .nil :: es.flatMap entryItems
  | _ => []

variable {v w : Value}

lemma items_eq (v : Value) : v.items = v.head :: v.tail := by
  cases v <;> rw [items] <;> rfl

lemma head_sized (h : v.Sized) : v.head.Sized ∧ v.head.Marked := by
  have h := All.self h
  cases v <;> simp only [Bounded, head, Item.Sized, Marked, and_true, length_utf8] at h ⊢ <;> omega

lemma Scalar.eq_of_head (hv : v.Scalar) (h : v.head = w.head) : v = w := by
  cases v <;> first
    | exact hv.elim
    | cases w <;> simp_all [head, utf8_inj, ParticleType.toByte]

lemma head_inj (hv : v.Sized) (hw : w.Sized) {s t : Bytes}
    (e : Item.pack v.items ++ s = Item.pack w.items ++ t) :
    v.head = w.head ∧ Item.pack v.tail ++ s = Item.pack w.tail ++ t := by
  rw [items_eq, items_eq] at e
  exact pack_cons_inj e (head_sized hv) (head_sized hw)

lemma Scalar.separates (h : v.Scalar) (hv : v.Sized) (hw : w.Sized) :
    Separates items (fun v => v) v w := by
  intro s t e
  obtain ⟨hhead, e⟩ := head_inj hv hw e
  obtain rfl := h.eq_of_head hhead
  exact ⟨rfl, List.append_cancel_left e⟩

lemma separates (hv : v.Sized) (hw : w.Sized) : Separates items (fun v => v) v w := by
  induction v generalizing w with
  | list vs ih =>
    intro s t e
    obtain ⟨hhead, e⟩ := head_inj hv hw e
    cases w with
    | list ws =>
      have hlen := array.inj hhead
      have hs : ∀ v ∈ vs, ∀ w ∈ ws, Separates items (fun v => v) v w := fun v hm w hm' =>
        ih v hm ((all_list.1 hv).2 v hm) ((all_list.1 hw).2 w hm')
      obtain ⟨hmap, hst⟩ := Separates.flatMap hs hlen s t e
      rw [List.map_id', List.map_id'] at hmap
      exact ⟨congrArg list hmap, hst⟩
    | _ => cases hhead
  | map es ih =>
    intro s t e
    obtain ⟨hhead, e⟩ := head_inj hv hw e
    cases w with
    | map fs =>
      have hlen := Nat.succ.inj (Item.map.inj hhead)
      -- The mark of the order and what stands beside it are the same in all maps.
      obtain ⟨-, e⟩ := pack_cons_inj e ⟨trivial, trivial⟩ ⟨trivial, trivial⟩
      obtain ⟨-, e⟩ := pack_cons_inj e ⟨trivial, trivial⟩ ⟨trivial, trivial⟩
      have hs : ∀ e ∈ es, ∀ f ∈ fs, Separates entryItems (fun e => e) e f := by
        intro e he f hf s t heq
        rw [entryItems, entryItems, pack_append, pack_append, List.append_assoc,
          List.append_assoc] at heq
        have hve := (all_map.1 hv).2 e he
        have hwf := (all_map.1 hw).2 f hf
        obtain ⟨hk, heq⟩ := (ih e he).1 hve.1 hwf.1 _ _ heq
        obtain ⟨hval, hst⟩ := (ih e he).2 hve.2 hwf.2 _ _ heq
        exact ⟨Prod.ext hk hval, hst⟩
      obtain ⟨hmap, hst⟩ := Separates.flatMap hs hlen s t e
      rw [List.map_id', List.map_id'] at hmap
      exact ⟨congrArg map hmap, hst⟩
    | _ => cases hhead
  | _ =>
    refine Scalar.separates ?_ hv hw
    trivial

/--
Bytes that begin with a value tell the value, up to what the order finds equal, and where it ends.
No limit on size or depth takes part, only that sizes and counts have numerals of four bytes.
-/
theorem pack_append_eq_iff (hv : v.Sized) (hw : w.Sized) (s t : Bytes) :
    v.pack ++ s = w.pack ++ t ↔ v.compare w = .eq ∧ s = t := by
  rw [compare_eq_eq]
  constructor
  · exact separates hv hw s t
  · rintro ⟨rfl, rfl⟩
    rfl

/-- Bodies of one length and zeros of either sign, beside each other. -/
theorem pack_append_ne_signed_zeros :
    (list [string "a", float ⟨0⟩]).Sized ∧ (list [blob [0x61], float ⟨0x8000000000000000⟩]).Sized ∧
      (list [string "a", float ⟨0⟩]).pack ++ [0xc0] ≠
        (list [blob [0x61], float ⟨0x8000000000000000⟩]).pack ++ [0xc0] := by
  have hv : (list [string "a", float ⟨0⟩]).Sized := by
    simp [Sized, all_list, All, Bounded]
    decide
  have hw : (list [blob [0x61], float ⟨0x8000000000000000⟩]).Sized := by
    simp [Sized, all_list, All, Bounded]
  refine ⟨hv, hw, fun h => ?_⟩
  obtain ⟨heq, -⟩ := (pack_append_eq_iff hv hw _ _).1 h
  exact absurd heq (by decide)

end NestedPath.Value
