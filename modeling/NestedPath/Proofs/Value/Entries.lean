import Mathlib.Data.List.Perm.Basic
import NestedPath.Proofs.Packed
import NestedPath.Proofs.Value.Decoded
import NestedPath.Proofs.Value.Front
import NestedPath.Proofs.Value.Injective
import NestedPath.Proofs.Value.Lookup

/-!
What becomes of the entries of a map when it is read: all of them are in the map and no two become
one, since a key that comes twice is turned down, in whatever form it comes.
-/

namespace NestedPath.Value

open Reader

variable {element : Reader Value} {v : Value} {max room n m : Nat} {s t u left : Bytes}
  {done es : List (Value × Value)}

/-! ### One entry after another -/

def readEntry (element : Reader Value) : Reader (Value × Value) := do
  let k ← element
  let v ← element
  return (k, v)

lemma readEntry_eq_ok {e : Value × Value} : readEntry element s = .ok e t ↔
    ∃ u, element s = .ok e.1 u ∧ element u = .ok e.2 t := by
  constructor
  · intro h
    obtain ⟨k, u, hk, hu⟩ := bind_eq_ok.1 h
    obtain ⟨v, w, hv, hw⟩ := bind_eq_ok.1 hu
    obtain ⟨rfl, rfl⟩ := pure_eq_ok.1 hw
    exact ⟨u, hk, hv⟩
  · rintro ⟨u, hk, hv⟩
    exact bind_eq_ok.2 ⟨e.1, u, hk, bind_eq_ok.2 ⟨e.2, t, hv, rfl⟩⟩

lemma framed_readEntry (he : Framed element) : Framed (readEntry element) :=
  he.bind fun _ => he.bind fun _ => Framed.pure _

lemma takes_readEntry (ht : Takes 1 element) : Takes 2 (readEntry element) :=
  ht.bind fun _ => ht.bind fun _ => (Framed.pure _).takes

/-- The map has the entries that are read behind those that there are, in the order of keys. -/
lemma readEntries_eq_ok (hdone : Assoc.Ascends descending done) :
    readEntries element n done s = .ok v t ↔
      ∃ new es, times (readEntry element) n [] s = .ok new t ∧ v = .map es ∧
        Assoc.Ascends Value.compare es ∧ es.Perm (new ++ done) := by
  induction n generalizing done s with
  | zero =>
    constructor
    · intro h
      obtain ⟨rfl, rfl⟩ := pure_eq_ok.1 h
      exact ⟨[], done.reverse, rfl, rfl, ascends_reverse hdone, done.reverse_perm⟩
    · rintro ⟨new, es, hnew, rfl, hes, hperm⟩
      obtain ⟨rfl, rfl⟩ := pure_eq_ok.1 hnew
      obtain rfl : es = done.reverse := Assoc.eq_of_mem_iff hes (ascends_reverse hdone) fun e => by
        rw [hperm.mem_iff, List.mem_reverse]
        rfl
      rfl
  | succ n ih =>
    constructor
    · intro h
      obtain ⟨k, u, hk, hu⟩ := bind_eq_ok.1 h
      obtain ⟨hnone, hu⟩ := unless_eq_ok.1 hu
      rw [Option.not_isSome_iff_eq_none] at hnone
      obtain ⟨w, u', hw, hu'⟩ := bind_eq_ok.1 hu
      obtain ⟨new, es, hnew, rfl, hes, hperm⟩ := (ih (Assoc.ascends_insert k w hdone)).1 hu'
      have hentry : readEntry element s = .ok (k, w) u' := readEntry_eq_ok.2 ⟨u, hk, hw⟩
      refine ⟨(k, w) :: new, es, times_succ_eq_ok.2 ⟨_, u', new, hentry, hnew, rfl⟩, rfl, hes, ?_⟩
      exact hperm.trans (Assoc.append_insert_perm hnone)
    · rintro ⟨all, es, hall, rfl, hes, hperm⟩
      obtain ⟨e, u', new, he, hnew, rfl⟩ := times_succ_eq_ok.1 hall
      obtain ⟨u, hk, hw⟩ := readEntry_eq_ok.1 he
      -- In the end all keys are different, so this one is not among those before.
      have hnone : Assoc.find? descending e.1 done = none := by
        have hnodup := (hperm.map Prod.fst).nodup_iff.1 (Assoc.nodup_keys hes)
        rw [List.cons_append, List.map_cons, List.map_append] at hnodup
        rw [Assoc.find?_eq_none hdone]
        exact fun hmem => (List.nodup_cons.1 hnodup).1 (List.mem_append_right _ hmem)
      have hrest := (ih (Assoc.ascends_insert e.1 e.2 hdone)).2 ⟨new, es, hnew, rfl, hes,
        hperm.trans (Assoc.append_insert_perm hnone).symm⟩
      refine bind_eq_ok.2 ⟨e.1, u, hk, unless_eq_ok.2 ⟨?_, bind_eq_ok.2 ⟨e.2, u', hw, hrest⟩⟩⟩
      rw [hnone]
      nofun

/-! ### The mark of the order -/

/-- Passes over the mark of the order if there is one. The result is how many entries come then. -/
def orderMark (max n : Nat) : Reader Nat := do
  if n = 0 then return 0
  if ← startsWithOrder then
    skip 0 "map order"
    skip max "map order"
    return n - 1
  else return n

lemma readMap_eq (element : Reader Value) (max n : Nat) : readMap element max n =
    limitLength "map" n Limits.items >>= fun _ => limitCount "map" n 2 >>= fun _ =>
      orderMark max n >>= fun m => readEntries element m [] := by
  rw [readMap, orderMark]
  refine bind_congr fun _ => bind_congr fun _ => ?_
  split
  · rw [pure_bind]
    rfl
  rw [bind_assoc]
  refine bind_congr fun ordered => ?_
  cases ordered with
  | true => simp only [if_true, bind_assoc, pure_bind]
  | false => rw [if_neg Bool.false_ne_true, if_neg Bool.false_ne_true, pure_bind]

/-- The entry that may stand in front of the others: an extension and the object beside it. -/
inductive OrderMark (max : Nat) : Nat → Bytes → Prop
  | none : OrderMark max 0 []
  | some {mark : Bytes} {o : Packed} (hm : ExtForm mark) (ho : o.WellFormed)
      (hmax : o.levels ≤ max) : OrderMark max 1 (mark ++ o.bytes)

lemma limitCount_eq_ok {field : String} {size : Nat} {x : Unit} :
    limitCount field n size s = .ok x t ↔ n * size ≤ s.length ∧ s = t := by
  rw [← Bytes.atLeast_iff]
  unfold limitCount
  split
  · rename_i h
    rw [EStateM.Result.ok.injEq]
    exact ⟨fun hs => ⟨h, hs.2⟩, fun hs => ⟨rfl, hs.2⟩⟩
  · rename_i h
    exact ⟨nofun, fun hs => absurd hs.1 h⟩

/-- A count in order makes no other difference than that it is in order. -/
lemma limits_eq_ok {r : Reader Value} {field : String} {size : Nat} :
    (limitLength field n max >>= fun _ => limitCount field n size >>= fun _ => r) s = .ok v t ↔
      n ≤ max ∧ n * size ≤ s.length ∧ r s = .ok v t := by
  constructor
  · intro h
    obtain ⟨⟨⟩, s', hlength, h1⟩ := bind_eq_ok.1 h
    obtain ⟨hn, rfl⟩ := limitLength_eq_ok.1 hlength
    obtain ⟨⟨⟩, s', hcount, h2⟩ := bind_eq_ok.1 h1
    obtain ⟨hlen, rfl⟩ := limitCount_eq_ok.1 hcount
    exact ⟨hn, hlen, h2⟩
  · rintro ⟨hn, hlen, h⟩
    refine bind_eq_ok.2 ⟨(), s, limitLength_eq_ok.2 ⟨hn, rfl⟩, ?_⟩
    exact bind_eq_ok.2 ⟨(), s, limitCount_eq_ok.2 ⟨hlen, rfl⟩, h⟩

lemma startsWithOrder_eq_ok {ordered : Bool} : startsWithOrder s = .ok ordered t ↔
    s = t ∧ ∃ b u, s = b :: u ∧ (Marker.ofByte b).isExt = ordered := by
  rcases s with - | ⟨b, u⟩
  · exact ⟨nofun, fun h => by simp at h⟩
  · change EStateM.Result.ok (Marker.ofByte b).isExt (b :: u) = _ ↔ _
    simp [and_comm]

/-- An extension in front of the entries is passed over, with the object beside it. -/
lemma orderMark_eq_ok : orderMark max n s = .ok m t ↔ ∃ k mark, OrderMark max k mark ∧ n = k + m ∧
    s = mark ++ t ∧ (k = 0 → m ≠ 0 → ∃ b u, t = b :: u ∧ (Marker.ofByte b).isExt = false) := by
  unfold orderMark
  constructor
  · intro h
    split at h
    · obtain ⟨rfl, rfl⟩ := pure_eq_ok.1 h
      exact ⟨0, [], .none, by omega, rfl, fun _ hm => absurd rfl hm⟩
    obtain ⟨ordered, u, hstart, hu⟩ := bind_eq_ok.1 h
    obtain ⟨rfl, b, w, rfl, hb⟩ := startsWithOrder_eq_ok.1 hstart
    cases ordered with
    | true =>
      obtain ⟨⟨⟩, x, hmark, hx⟩ := bind_eq_ok.1 hu
      obtain ⟨⟨⟩, y, hbeside, hy⟩ := bind_eq_ok.1 hx
      obtain ⟨hm, rfl⟩ := pure_eq_ok.1 hy
      -- What begins with the first byte of an extension holds no objects.
      obtain ⟨o, ho, -, hs⟩ := Packed.skip_eq_ok_iff.1 hmark
      obtain ⟨bs, rfl, hext⟩ := ho.ext_of_isExt hs.symm hb
      obtain ⟨p, hp, hmax, rfl⟩ := Packed.skip_eq_ok_iff.1 hbeside
      refine ⟨1, _, .some hext hp hmax, by omega, ?_, nofun⟩
      rw [hs, List.append_assoc, Packed.bytes]
    | false =>
      obtain ⟨rfl, rfl⟩ := pure_eq_ok.1 hu
      exact ⟨0, [], .none, by omega, rfl, fun _ _ => ⟨b, w, rfl, hb⟩⟩
  · rintro ⟨k, mark, hmark, rfl, rfl, hnext⟩
    cases hmark with
    | none =>
      split
      · rename_i hm
        exact pure_eq_ok.2 ⟨hm.symm.trans (Nat.zero_add m), rfl⟩
      · rename_i hm
        obtain ⟨b, u, rfl, hb⟩ := hnext rfl (by omega)
        rw [Nat.zero_add]
        exact bind_eq_ok.2 ⟨false, b :: u, startsWithOrder_eq_ok.2 ⟨rfl, b, u, rfl, hb⟩, rfl⟩
    | @some mark o hm ho hmax =>
      obtain ⟨b, ds, rfl, hb⟩ := Packed.isExt_of_ext hm
      have hleaf : (Packed.leaf (b :: ds)).levels ≤ 0 := by
        rw [Packed.levels]
      have hmark : skip 0 "map order" (b :: ds ++ (o.bytes ++ t)) = .ok () (o.bytes ++ t) :=
        Packed.skip_eq_ok_iff.2 ⟨.leaf (b :: ds), .leaf (.ext hm), hleaf, by rw [Packed.bytes]⟩
      have hbeside : skip max "map order" (o.bytes ++ t) = .ok () t :=
        Packed.skip_eq_ok_iff.2 ⟨o, ho, hmax, rfl⟩
      rw [if_neg (by omega), List.append_assoc]
      refine bind_eq_ok.2 ⟨true, _, startsWithOrder_eq_ok.2 ⟨rfl, b, _, rfl, hb⟩, ?_⟩
      refine bind_eq_ok.2 ⟨(), _, hmark, bind_eq_ok.2 ⟨(), _, hbeside, ?_⟩⟩
      exact pure_eq_ok.2 ⟨by omega, rfl⟩

lemma OrderMark.le_length {k : Nat} {mark : Bytes} (h : OrderMark max k mark) :
    k * 2 ≤ mark.length := by
  cases h with
  | none => exact Nat.le_refl _
  | @some mark o hm ho hmax =>
    obtain ⟨b, ds, rfl, -⟩ := Packed.isExt_of_ext hm
    have hskip : skip max "map order" (o.bytes ++ []) = .ok () [] :=
      Packed.skip_eq_ok_iff.2 ⟨o, ho, hmax, rfl⟩
    have hpos := takes_skip max "map order" _ _ _ hskip
    rw [List.append_nil] at hpos
    simp only [List.length_append, List.length_cons, List.length_nil] at hpos ⊢
    omega

/-! ### The whole of a map -/

/-- What is read begins with a byte, and this is not the first byte of an extension. -/
def Unmarked (element : Reader Value) : Prop :=
  ∀ s v t, element s = .ok v t → ∃ b u, s = b :: u ∧ (Marker.ofByte b).isExt = false

lemma unmarked_readWithin (max room : Nat) : Unmarked (readWithin max room) := by
  intro s v t h
  cases room with
  | zero => exact absurd h throw_ne_ok
  | succ room =>
    obtain ⟨b, u, hb, hu⟩ := bind_eq_ok.1 h
    rw [byte_eq_ok] at hb
    refine ⟨b, u, hb, ?_⟩
    cases hm : Marker.ofByte b with
    | ext width =>
      rw [hm] at hu
      exact absurd hu throw_ne_ok
    | fixext size =>
      rw [hm] at hu
      exact absurd hu throw_ne_ok
    | _ => rfl

/-- A map has the entries that are read behind the mark of its order, in the order of keys. -/
lemma readMap_eq_ok : readMap element max n s = .ok v t ↔ n ≤ Limits.items ∧ n * 2 ≤ s.length ∧
    ∃ m u new es, orderMark max n s = .ok m u ∧ times (readEntry element) m [] u = .ok new t ∧
      v = .map es ∧ Assoc.Ascends Value.compare es ∧ es.Perm new := by
  rw [readMap_eq, limits_eq_ok, bind_eq_ok]
  refine and_congr_right fun _ => and_congr_right fun _ => ?_
  refine exists_congr fun m => exists_congr fun u => ?_
  rw [readEntries_eq_ok List.Pairwise.nil]
  simp only [List.append_nil, exists_and_left]

/-- The bytes of a map are the mark of its order, if it has one, and its entries in any order. -/
lemma readMap_iff_parts (hf : Framed element) (ht : Takes 1 element) (hu : Unmarked element) :
    readMap element max n s = .ok v t ↔ n ≤ Limits.items ∧ ∃ k mark parts new es,
      OrderMark max k mark ∧ n = k + new.length ∧ s = mark ++ (parts.flatten ++ t) ∧
        List.Forall₂ (Reads (readEntry element)) parts new ∧
          v = .map es ∧ Assoc.Ascends Value.compare es ∧ es.Perm new := by
  rw [readMap_eq_ok]
  constructor
  · rintro ⟨hn, -, m, u, new, es, hmark, hnew, rfl, hes, hperm⟩
    obtain ⟨k, mark, hk, rfl, rfl, -⟩ := orderMark_eq_ok.1 hmark
    obtain ⟨rfl, parts, rfl, hparts⟩ := (framed_readEntry hf).times_eq_ok.1 hnew
    exact ⟨hn, k, mark, parts, new, es, hk, rfl, rfl, hparts, rfl, hes, hperm⟩
  · rintro ⟨hn, k, mark, parts, new, es, hk, rfl, rfl, hparts, rfl, hes, hperm⟩
    have hnew : times (readEntry element) new.length [] (parts.flatten ++ t) = .ok new t :=
      reads_times_flatten hparts t
    have hlen : (k + new.length) * 2 ≤ (mark ++ (parts.flatten ++ t)).length := by
      have h1 := hk.le_length
      have h2 := (takes_readEntry ht).times new.length [] _ _ _ hnew
      rw [List.length_append]
      omega
    have hnext : k = 0 → new.length ≠ 0 →
        ∃ b u, parts.flatten ++ t = b :: u ∧ (Marker.ofByte b).isExt = false := by
      intro _ hne
      cases hparts with
      | nil => exact absurd rfl hne
      | @cons part e parts new hpart _ =>
        obtain ⟨u, hkey, -⟩ := readEntry_eq_ok.1 (hpart (parts.flatten ++ t))
        rw [List.flatten_cons, List.append_assoc]
        exact hu _ _ _ hkey
    have hmark := orderMark_eq_ok.2 ⟨k, mark, hk, rfl, rfl, hnext⟩
    exact ⟨hn, hlen, _, _, new, es, hmark, hnew, rfl, hes, hperm⟩

/-- The bytes of the entries may change places. -/
lemma readMap_perm {k : Nat} {mark : Bytes} {parts parts' : List Bytes}
    {new : List (Value × Value)} (hf : Framed element) (ht : Takes 1 element)
    (hu : Unmarked element) (hn : k + new.length ≤ Limits.items) (hk : OrderMark max k mark)
    (hparts : List.Forall₂ (Reads (readEntry element)) parts new)
    (hes : Assoc.Ascends Value.compare es) (hperm : es.Perm new) (hp : parts'.Perm parts) :
    readMap element max (k + new.length) (mark ++ (parts'.flatten ++ t)) = .ok (.map es) t := by
  obtain ⟨new', hparts', hperm'⟩ := List.perm_comp_forall₂ hp hparts
  have hlen := hperm'.length_eq
  rw [← hlen] at hn ⊢
  exact (readMap_iff_parts hf ht hu).2 ⟨hn, k, mark, parts', new', es, hk, rfl, rfl, hparts', rfl,
    hes, hperm.trans hperm'.symm⟩

end NestedPath.Value
