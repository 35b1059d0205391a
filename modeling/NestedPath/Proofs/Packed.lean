import NestedPath.Proofs.Elements
import NestedPath.Proofs.Forms

/-!
Packed objects as trees: an object that no others belong to, or the header of a list or map with the
objects that belong to it.

The bytes of an object have one tree only, so what is said of the tree is said of the bytes. Readers
of objects take the bytes of just those trees that are no deeper than they go.
-/

namespace NestedPath

open Reader

/-- A packed object, taken apart. The keys and values of a map stand in turn. -/
inductive Packed where
  | leaf (bytes : Bytes)
  | branch (kind : Branch) (header : Bytes) (inner : List Packed)

namespace Packed

/-- An object has none or any number of objects within it. -/
@[elab_as_elim, induction_eliminator]
theorem induct {P : Packed → Prop} (leaf : ∀ bs, P (.leaf bs))
    (branch : ∀ kind hd inner, (∀ c ∈ inner, P c) → P (.branch kind hd inner)) : ∀ o, P o
  | .leaf bs => leaf bs
  | .branch kind hd inner => branch kind hd inner fun c _ => induct leaf branch c

def bytes : Packed → Bytes
  | leaf bs => bs
  | branch _ hd inner => hd ++ inner.flatMap fun c => c.bytes

def levels : Packed → Nat
  | leaf _ => 0
  | branch _ _ inner => levelsOver (inner.map fun c => c.levels)

/-- The bytes and the counts of the object are in order. -/
inductive WellFormed : Packed → Prop
  | leaf {bs : Bytes} (h : LeafForm bs) : WellFormed (leaf bs)
  | branch {kind : Branch} {n : Nat} {hd : Bytes} {inner : List Packed} (h : Header kind n hd)
      (hn : inner.length = kind.arity * n) (hi : ∀ c ∈ inner, WellFormed c) :
      WellFormed (branch kind hd inner)

variable {o o' : Packed} {os os' : List Packed} {s t : Bytes}

/-! ### Trees and levels -/

lemma WellFormed.nests (h : o.WellFormed) : Nests [o.levels] o.bytes := by
  induction o with
  | leaf bs =>
    cases h with
    | leaf h =>
      rw [levels, bytes]
      exact h.nests
  | branch kind hd inner ih =>
    cases h with
    | branch hh hn hi =>
      have hinner : Nests (inner.map levels) (inner.flatMap bytes) :=
        Nests.map fun c hc => ih c hc (hi c hc)
      have hhead := hh.reads_head
      rw [← hn, ← inner.length_map (f := levels)] at hhead
      rw [levels, bytes]
      exact Nests.node hhead hinner

/-- Every run of objects is a run of trees. -/
lemma exists_of_nests {ds : List Nat} {bs : Bytes} (h : Nests ds bs) : ∃ os : List Packed,
    (∀ o ∈ os, o.WellFormed) ∧ os.map levels = ds ∧ os.flatMap bytes = bs := by
  induction h with
  | nil => exact ⟨[], by simp⟩
  | @cons hd body bs cs inner ds hhead hinner _ ihi ih =>
    obtain ⟨os, hos, rfl, rfl⟩ := ih
    obtain ⟨is, his, rfl, rfl⟩ := ihi
    rcases head_cases hhead with ⟨hn, hleaf⟩ | ⟨hm, kind, k, hn, hh⟩
    · obtain rfl : is = [] := by simpa using hn
      refine ⟨leaf (hd ++ body) :: os, List.forall_mem_cons.2 ⟨.leaf (hleaf body rfl), hos⟩, ?_, ?_⟩
      · rw [List.map_cons, levels]
        rfl
      · rw [List.flatMap_cons, bytes]
        simp
    · obtain rfl := List.length_eq_zero_iff.1 hm
      rw [List.length_map] at hn
      refine ⟨branch kind hd is :: os, List.forall_mem_cons.2 ⟨.branch hh hn his, hos⟩, ?_, ?_⟩
      · rw [List.map_cons, levels]
      · rw [List.flatMap_cons, bytes]
        simp

lemma WellFormed.isObject (h : o.WellFormed) : IsObject o.bytes := isObject_iff.2 ⟨_, h.nests⟩

lemma WellFormed.levels_bytes (h : o.WellFormed) : o.bytes.levels = o.levels := h.nests.levels_eq

lemma exists_of_isObject {bs : Bytes} (h : IsObject bs) :
    ∃ o : Packed, o.WellFormed ∧ o.bytes = bs := by
  obtain ⟨os, hos, hlevels, hbytes⟩ := exists_of_nests h.nests
  obtain ⟨o, rfl, -⟩ := List.map_eq_singleton_iff.1 hlevels
  rw [List.flatMap_singleton] at hbytes
  exact ⟨o, hos o List.mem_cons_self, hbytes⟩

/-- The bytes of the trees that there is room for are passed over, and no others. -/
lemma reads_skip_iff {max : Nat} {l : String} {bs : Bytes} : Reads (skip max l) bs () ↔
    ∃ o : Packed, o.WellFormed ∧ o.levels ≤ max ∧ o.bytes = bs := by
  constructor
  · intro h
    obtain ⟨o, ho, rfl⟩ := exists_of_isObject h.isObject
    have hmax := h.levels_le
    rw [ho.levels_bytes] at hmax
    exact ⟨o, ho, hmax, rfl⟩
  · rintro ⟨o, ho, hmax, rfl⟩
    rw [← ho.levels_bytes] at hmax
    exact ho.isObject.reads_skip hmax l

/-- A reader of objects takes the bytes of the trees that it has room for, and no others. -/
lemma object_eq_ok_iff {max : Nat} {l : String} {bs : Bytes} : object max l s = .ok bs t ↔
    ∃ o : Packed, o.WellFormed ∧ o.levels ≤ max ∧ o.bytes = bs ∧ s = bs ++ t := by
  rw [object_eq_ok, reads_skip_iff]
  constructor
  · rintro ⟨rfl, o, ho, hmax, rfl⟩
    exact ⟨o, ho, hmax, rfl, rfl⟩
  · rintro ⟨o, ho, hmax, rfl, rfl⟩
    exact ⟨rfl, o, ho, hmax, rfl⟩

lemma skip_eq_ok_iff {max : Nat} {l : String} : skip max l s = .ok () t ↔
    ∃ o : Packed, o.WellFormed ∧ o.levels ≤ max ∧ s = o.bytes ++ t := by
  constructor
  · intro h
    obtain ⟨bs, rfl, hbs⟩ := framed_skip max l _ _ _ h
    obtain ⟨o, ho, hmax, rfl⟩ := reads_skip_iff.1 hbs
    exact ⟨o, ho, hmax, rfl⟩
  · rintro ⟨o, ho, hmax, rfl⟩
    exact reads_skip_iff.2 ⟨o, ho, hmax, rfl⟩ t

/-! ### One tree only -/

/-- The first byte tells a list or a map from all else. -/
lemma branch?_of_header {kind : Branch} {n : Nat} {hd : Bytes} (h : Header kind n hd) :
    ∃ b ds, hd = b :: ds ∧ (Marker.ofByte b).branch? = some kind := by
  cases kind with
  | list =>
    cases lead_list_iff.2 h with
    | short hb => exact ⟨_, _, rfl, by rw [hb]; rfl⟩
    | long hb => exact ⟨_, _, rfl, by rw [hb]; rfl⟩
  | map =>
    cases lead_map_iff.2 h with
    | short hb => exact ⟨_, _, rfl, by rw [hb]; rfl⟩
    | long hb => exact ⟨_, _, rfl, by rw [hb]; rfl⟩

lemma marker_of_leaf {bs : Bytes} (h : LeafForm bs) :
    ∃ b ds, bs = b :: ds ∧ (Marker.ofByte b).branch? = none ∧
      ((Marker.ofByte b).isExt = true → ExtForm bs) := by
  cases h with
  | number h =>
    cases h with
    | positive h => exact ⟨_, _, rfl, by rw [Marker.ofByte_of_lt h]; exact ⟨rfl, nofun⟩⟩
    | negative h => exact ⟨_, _, rfl, by rw [Marker.ofByte_of_ge h]; exact ⟨rfl, nofun⟩⟩
    | unsigned hb => exact ⟨_, _, rfl, by rw [Marker.ofByte_unsigned _ hb]; exact ⟨rfl, nofun⟩⟩
    | signed hb => exact ⟨_, _, rfl, by rw [Marker.ofByte_signed _ hb]; exact ⟨rfl, nofun⟩⟩
  | nil => exact ⟨_, _, rfl, rfl, nofun⟩
  | bool b => cases b <;> exact ⟨_, _, rfl, rfl, nofun⟩
  | float hb =>
    rcases Marker.ofByte_float _ hb with h | h
    · exact ⟨_, _, rfl, by rw [h]; exact ⟨rfl, nofun⟩⟩
    · exact ⟨_, _, rfl, by rw [h]; exact ⟨rfl, nofun⟩⟩
  | text hl => exact ⟨_, _, rfl, by rw [Marker.ofByte_fixstr _ hl]; exact ⟨rfl, nofun⟩⟩
  | body hb =>
    rcases Marker.ofByte_body _ hb with h | h
    · exact ⟨_, _, rfl, by rw [h]; exact ⟨rfl, nofun⟩⟩
    · exact ⟨_, _, rfl, by rw [h]; exact ⟨rfl, nofun⟩⟩
  | ext h =>
    cases h with
    | fixed hb hl =>
      exact ⟨_, _, rfl, by rw [Marker.ofByte_fixext _ hb]; rfl, fun _ => .fixed hb hl⟩
    | sized hb hw hl =>
      exact ⟨_, _, rfl, by rw [Marker.ofByte_ext _ hb]; rfl, fun _ => .sized hb hw hl⟩

lemma isExt_of_ext {bs : Bytes} (h : ExtForm bs) :
    ∃ b ds, bs = b :: ds ∧ (Marker.ofByte b).isExt = true := by
  cases h with
  | fixed hb => exact ⟨_, _, rfl, congrArg Marker.isExt (Marker.ofByte_fixext _ hb)⟩
  | sized hb => exact ⟨_, _, rfl, congrArg Marker.isExt (Marker.ofByte_ext _ hb)⟩

/-- The first byte tells an extension from all else. -/
lemma WellFormed.ext_of_isExt {b : UInt8} (h : o.WellFormed) (e : o.bytes ++ s = b :: t)
    (hb : (Marker.ofByte b).isExt = true) : ∃ bs, o = Packed.leaf bs ∧ ExtForm bs := by
  cases h with
  | @leaf bs h =>
    obtain ⟨b', ds, rfl, -, hext⟩ := marker_of_leaf h
    rw [bytes] at e
    obtain ⟨rfl, -⟩ := List.cons.inj e
    exact ⟨_, rfl, hext hb⟩
  | branch hh =>
    obtain ⟨b', ds, rfl, hkind⟩ := branch?_of_header hh
    rw [bytes] at e
    obtain ⟨rfl, -⟩ := List.cons.inj e
    rw [Marker.branch?_of_isExt hb] at hkind
    cases hkind

lemma leaf_ne_branch {kind : Branch} {n : Nat} {hd bs : Bytes} (h : LeafForm bs)
    (hh : Header kind n hd) : bs ≠ hd ++ s := by
  obtain ⟨b, ds, rfl, hb, -⟩ := marker_of_leaf h
  obtain ⟨b', ds', rfl, hb'⟩ := branch?_of_header hh
  intro e
  obtain ⟨rfl, -⟩ := List.cons.inj e
  cases hb.symm.trans hb'

/-- Runs of equally many trees are told apart by their bytes if single ones are. -/
lemma eq_of_flatMap_bytes_eq (h : ∀ o ∈ os, ∀ o' ∈ os', o.bytes = o'.bytes → o = o')
    (ho : ∀ o ∈ os, o.WellFormed) (ho' : ∀ o ∈ os', o.WellFormed) (hlen : os.length = os'.length)
    (e : os.flatMap bytes = os'.flatMap bytes) : os = os' := by
  have hflat : (os.map bytes).flatten ++ [] = (os'.map bytes).flatten ++ [] := congrArg (· ++ []) e
  obtain ⟨hmap, -⟩ := flatten_append_inj (List.forall_mem_map.2 fun o hm => (ho o hm).isObject)
    (List.forall_mem_map.2 fun o hm => (ho' o hm).isObject) (by simpa using hlen) hflat
  refine List.ext_getElem hlen fun i hi hi' => ?_
  refine h _ (List.getElem_mem hi) _ (List.getElem_mem hi') ?_
  have hget := congrArg (fun bss => bss[i]?) hmap
  simpa [hi, hi'] using hget

lemma WellFormed.eq_of_bytes_eq (h : o.WellFormed) (h' : o'.WellFormed) (e : o.bytes = o'.bytes) :
    o = o' := by
  induction o generalizing o' with
  | leaf bs =>
    obtain ⟨h⟩ := h
    rcases o' with bs' | ⟨kind', hd', inner'⟩
    · rw [bytes, bytes] at e
      rw [e]
    · obtain - | ⟨hh', -, -⟩ := h'
      rw [bytes, bytes] at e
      exact absurd e (leaf_ne_branch h hh')
  | branch kind hd inner ih =>
    obtain - | ⟨hh, hn, hi⟩ := h
    rcases o' with bs' | ⟨kind', hd', inner'⟩
    · obtain ⟨h'⟩ := h'
      rw [bytes, bytes] at e
      exact absurd e.symm (leaf_ne_branch h' hh)
    · obtain - | ⟨hh', hn', hi'⟩ := h'
      rw [bytes, bytes] at e
      obtain ⟨hx, htail⟩ := hh.reads_head.append_inj hh'.reads_head e
      have hlen : inner.length = inner'.length := by
        rw [hn, hn']
        exact (Prod.mk.inj hx).2
      obtain rfl := eq_of_flatMap_bytes_eq
        (fun c hc c' hc' => ih c hc (hi c hc) (hi' c' hc')) hi hi' hlen htail
      obtain rfl := List.append_cancel_right e
      obtain ⟨b, ds, rfl, hb⟩ := branch?_of_header hh
      obtain ⟨b', ds', hcons, hb'⟩ := branch?_of_header hh'
      obtain ⟨rfl, rfl⟩ := List.cons.inj hcons
      rw [Option.some.inj (hb.symm.trans hb')]

/-- The tree that bytes begin with is known by them, and so is where it ends. -/
lemma WellFormed.append_inj (h : o.WellFormed) (h' : o'.WellFormed)
    (e : o.bytes ++ s = o'.bytes ++ t) : o = o' ∧ s = t := by
  obtain ⟨hbytes, hst⟩ := h.isObject.append_inj h'.isObject e
  exact ⟨h.eq_of_bytes_eq h' hbytes, hst⟩

end Packed

end NestedPath
