import NestedPath.Proofs.Headers
import NestedPath.Proofs.Value.Bounds
import NestedPath.Proofs.Value.Decoded

/-!
What is written for a value is read as that value, whatever stands behind it, just if the value is
within the limits. On the way down a reader leaves one level less room for what a list or map
holds, and so does the check before writing.
-/

namespace NestedPath.Value

open Reader

variable {p : Prop} {α : Type} {bs : Bytes} {a : α}

/-! ### Checks -/

lemma readsIf_limitLength (field : String) (n max : Nat) :
    ReadsIf (n ≤ max) (limitLength field n max) [] () := by
  intro rest
  unfold limitLength
  split
  · exact ⟨fun h => by omega, fun _ => ⟨_, _, rfl⟩⟩
  · exact ⟨fun _ => rfl, fun h => by omega⟩

/-- A count passes if the elements take as many bytes as it calls for. -/
lemma readsIf_limitCount {f : Unit → Reader α} {field : String} {n size : Nat}
    (h : n * size ≤ bs.length) (hf : ReadsIf p (f ()) bs a) :
    ReadsIf p (limitCount field n size >>= f) bs a := by
  refine ReadsIf.look (fun rest => ?_) hf
  unfold limitCount
  rw [if_pos (Bytes.atLeast_iff.2 (by rw [List.length_append]; omega))]

/-! ### Texts, blobs and documents -/

/-- The values whose bytes are a body behind its type byte. -/
inductive Particle : Value → UInt8 → Bytes → Prop
  | string (s : String) : Particle (string s) ParticleType.string.toByte (utf8 s)
  | blob (bytes : Bytes) : Particle (blob bytes) ParticleType.blob.toByte bytes
  | geo (json : String) : Particle (geo json) ParticleType.geo.toByte (utf8 json)

lemma reads_textOf (field s : String) : Reads (textOf field (utf8 s)) [] s := by
  rw [textOf, ofUtf8?_eq_some.2 rfl]
  exact Reads.pure s

lemma Particle.readsIf {v : Value} {type : UInt8} {body : Bytes} (h : Particle v type body) :
    ReadsIf (body.length + 1 ≤ Limits.body) (readParticle (body.length + 1)) (type :: body) v := by
  unfold readParticle
  refine (readsIf_limitLength _ _ _).bind_reads ?_
  rw [if_neg (Nat.succ_ne_zero _)]
  refine (reads_byte _ type).bind ((reads_bytes _ rfl).bind_nil ?_)
  cases h with
  | string s =>
    rw [ParticleType.ofByte?_toByte]
    exact (reads_textOf _ s).bind_nil (Reads.pure _)
  | blob bytes =>
    rw [ParticleType.ofByte?_toByte]
    exact Reads.pure _
  | geo json =>
    rw [ParticleType.ofByte?_toByte]
    exact (reads_textOf _ json).bind_nil (Reads.pure _)

lemma Particle.pack_eq {v : Value} {type : UInt8} {body : Bytes} (h : Particle v type body) :
    v.pack = Item.sizeHeader (body.length + 1) ++ type :: body := by
  cases h <;> rw [pack, items, Item.pack_cons, Item.pack_nil, List.append_nil, Item.bytes]

lemma Particle.scalar {v : Value} {type : UInt8} {body : Bytes} (h : Particle v type body) :
    v.Scalar := by
  cases h <;> trivial

lemma Particle.all_bounded {v : Value} {type : UInt8} {body : Bytes} {m n : Nat}
    (h : Particle v type body) : v.All (Bounded m n) ↔ body.length + 1 ≤ m := by
  rw [h.scalar.all_iff]
  cases h <;> rfl

/-! ### Lists and maps -/

lemma one_le_length_pack (v : Value) : 1 ≤ v.pack.length := by
  have h : ∃ i is, v.items = i :: is ∧ ∀ bs, i ≠ Item.packed bs := by
    cases v <;> simp [items]
  obtain ⟨i, is, hi, hp⟩ := h
  rw [pack, hi, Item.pack_cons, List.length_append]
  exact Nat.le_add_right_of_le (List.length_pos_iff.2 (Item.bytes_ne_nil hp))

lemma le_length_flatMap {β : Type} {f : β → Bytes} {size : Nat} (bs : List β)
    (h : ∀ b ∈ bs, size ≤ (f b).length) : bs.length * size ≤ (bs.flatMap f).length := by
  induction bs with
  | nil => simp
  | cons b bs ih =>
    have hb := h b List.mem_cons_self
    have ih := ih fun c hc => h c (List.mem_cons_of_mem _ hc)
    rw [List.length_cons, List.flatMap_cons, List.length_append, Nat.succ_mul]
    omega

section

variable {element : Reader Value} {q : Value → Prop}

lemma readsIf_readList {vs : List Value} (h : ∀ v ∈ vs, ReadsIf (q v) element v.pack v) :
    ReadsIf (vs.length ≤ Limits.items ∧ ∀ v ∈ vs, q v) (readList element vs.length)
      (vs.flatMap pack) (list vs) := by
  have hn := le_length_flatMap vs fun v _ => v.one_le_length_pack
  refine (readsIf_limitLength _ _ _).bind fun _ => ?_
  exact readsIf_limitCount hn ((ReadsIf.times vs h []).bind_pure list)

/-- Entries in the order of their keys are put in front of those read before, one after another. -/
lemma readsIf_readEntries (es done : List (Value × Value))
    (ha : Assoc.Ascends Value.compare (done.reverse ++ es))
    (h : ∀ e ∈ es, ReadsIf (q e.1) element e.1.pack e.1 ∧ ReadsIf (q e.2) element e.2.pack e.2) :
    ReadsIf (∀ e ∈ es, q e.1 ∧ q e.2) (readEntries element es.length done) (es.flatMap packEntry)
      (map (done.reverse ++ es)) := by
  induction es generalizing done with
  | nil =>
    rw [List.append_nil]
    exact (Reads.pure _).readsIf.congr (by simp)
  | cons e es ih =>
    obtain ⟨h1, h2⟩ := h e List.mem_cons_self
    have hbelow : ∀ f ∈ done, descending e.1 f.1 = .lt := fun f hf =>
      (List.pairwise_append.1 ha).2.2 f (List.mem_reverse.2 hf) e List.mem_cons_self
    have ih := ih (e :: done) (by simpa using ha) fun f hf => h f (List.mem_cons_of_mem _ hf)
    rw [List.reverse_cons, List.append_assoc, List.singleton_append] at ih
    rw [List.flatMap_cons, packEntry, List.append_assoc, List.length_cons]
    have h3 : ReadsIf (q e.1 ∧ q e.2 ∧ ∀ e ∈ es, q e.1 ∧ q e.2)
        (readEntries element (es.length + 1) done)
        (e.1.pack ++ (e.2.pack ++ es.flatMap packEntry)) (map (done.reverse ++ e :: es)) := by
      refine h1.bind fun _ => ?_
      rw [Assoc.find?_of_below hbelow]
      refine h2.bind fun _ => ?_
      rw [Assoc.insert_of_below hbelow]
      exact ih
    exact h3.congr (by rw [List.forall_mem_cons, and_assoc])

/-- The marker of the order is passed over, with the object beside it. -/
lemma readsIf_readMap {es : List (Value × Value)} (max : Nat)
    (ha : Assoc.Ascends Value.compare es)
    (h : ∀ e ∈ es, ReadsIf (q e.1) element e.1.pack e.1 ∧ ReadsIf (q e.2) element e.2.pack e.2) :
    ReadsIf (es.length + 1 ≤ Limits.items ∧ ∀ e ∈ es, q e.1 ∧ q e.2)
      (readMap element max (es.length + 1))
      (Item.bytes (.ext keyOrdered) ++ (Item.bytes .nil ++ es.flatMap packEntry)) (map es) := by
  have hn : es.length * 2 ≤ (es.flatMap packEntry).length := by
    refine le_length_flatMap es fun e _ => ?_
    have h1 := e.1.one_le_length_pack
    have h2 := e.2.one_le_length_pack
    rw [packEntry, List.length_append]
    omega
  have hlen : (es.length + 1) * 2 ≤
      (Item.bytes (.ext keyOrdered) ++ (Item.bytes .nil ++ es.flatMap packEntry)).length := by
    have h3 : (Item.bytes (.ext keyOrdered)).length = 3 := rfl
    have h1 : (Item.bytes .nil).length = 1 := rfl
    rw [List.length_append, List.length_append, h3, h1]
    omega
  have hmark : Reads (skip 0 "map order") (Item.bytes (.ext keyOrdered)) () := fun _ => rfl
  have hbeside : Reads (skip max "map order") (Item.bytes .nil) () := fun _ => rfl
  refine (readsIf_limitLength _ _ _).bind fun _ => ?_
  refine readsIf_limitCount hlen ?_
  rw [if_neg (Nat.succ_ne_zero _)]
  refine ReadsIf.look (c := true) (fun _ => rfl) ?_
  rw [if_pos rfl]
  exact hmark.bind_if (hbeside.bind_if (readsIf_readEntries es [] ha h))

end

/-! ### Whole values -/

section

variable {v : Value} {max : Nat}

lemma readsIf_of_succ (h : ∀ room,
      ReadsIf (v.depth < room + 1 ∧ v.Limited) (readWithin max (room + 1)) v.pack v) (room : Nat) :
    ReadsIf (v.depth < room ∧ v.Limited) (readWithin max room) v.pack v := by
  cases room with
  | zero => exact ReadsIf.throw _ fun h => Nat.not_lt_zero _ h.1
  | succ room => exact h room

lemma readsIf_scalar {room : Nat} (hs : v.Scalar) (hb : v.Bounded Limits.body Limits.items)
    (h : Reads (readWithin max (room + 1)) v.pack v) :
    ReadsIf (v.depth < room + 1 ∧ v.Limited) (readWithin max (room + 1)) v.pack v :=
  h.readsIf.congr (by simp [hs.depth_eq, Limited, hs.all_iff, hb])

lemma Particle.readsIf_readWithin {type : UInt8} {body : Bytes} (h : Particle v type body)
    (hs : v.Sized) (room : Nat) :
    ReadsIf (v.depth < room + 1 ∧ v.Limited) (readWithin max (room + 1)) v.pack v := by
  have hn : body.length + 1 < 1 <<< 32 := by
    have := h.all_bounded.1 hs
    omega
  have hc : body.length + 1 ≤ Limits.body ↔ v.depth < room + 1 ∧ v.Limited := by
    rw [h.scalar.depth_eq, Limited, h.all_bounded]
    exact (and_iff_right (Nat.succ_pos _)).symm
  rw [readWithin, h.pack_eq]
  refine ((Item.lead_sizeHeader hn).readsIf (m := "string length") ?_ ?_ h.readsIf).congr hc
  · intro b hb
    rw [hb]
  · intro b width hb
    rw [hb]

lemma reads_int_pack (n : Int64) (room : Nat) :
    Reads (readWithin max (room + 1)) (int n).pack (int n) := by
  rw [readWithin, pack, items, Item.pack_cons, Item.pack_nil, List.append_nil]
  refine (Item.lead_number n).reads (g := int) (m := "value") (fun b hb => ?_)
    (fun b width hb => ?_) (fun b width hb => ?_)
  · rw [hb]
  · rw [hb]
  · rw [hb]

lemma reads_float_pack (d : Double) (room : Nat) :
    Reads (readWithin max (room + 1)) (float d).pack (float d) := by
  rw [readWithin, pack, items, Item.pack_cons, Item.pack_nil, List.append_nil]
  exact reads_double (g := float) d rfl

end

/-- A value is read back just if it is within the limits and not too deep for the room. -/
lemma readsIf_readWithin {v : Value} (hs : v.Sized) (ho : v.Ordered) (max room : Nat) :
    ReadsIf (v.depth < room ∧ v.Limited) (readWithin max room) v.pack v := by
  -- Without room nothing is read; else what the value holds has one level less.
  refine readsIf_of_succ (fun room => ?_) room
  induction v generalizing room with
  | string s => exact (Particle.string s).readsIf_readWithin hs room
  | blob bytes => exact (Particle.blob bytes).readsIf_readWithin hs room
  | geo json => exact (Particle.geo json).readsIf_readWithin hs room
  | list vs ih =>
    have hn : vs.length < 1 <<< 32 := by
      have := (all_list.1 hs).1
      simp only [Bounded] at this
      omega
    have hvs := readsIf_readList fun v hv =>
      readsIf_of_succ (ih v hv ((all_list.1 hs).2 v hv) ((all_list.1 ho).2 v hv)) room
    rw [readWithin, pack_list]
    refine ((Item.lead_array hn).readsIf (m := "list length") ?_ ?_ hvs).congr ?_
    · intro b hb
      rw [hb]
    · intro b width hb
      rw [hb]
    · rw [depth_list_lt, Limited, all_list, Bounded]
      exact ⟨fun h => ⟨fun v hv => (h.2 v hv).1, h.1, fun v hv => (h.2 v hv).2⟩,
        fun h => ⟨h.2.1, fun v hv => ⟨h.1 v hv, h.2.2 v hv⟩⟩⟩
  | map es ih =>
    have hn : es.length + 1 < 1 <<< 32 := by
      have := (all_map.1 hs).1
      simp only [Bounded] at this
      omega
    have hes := readsIf_readMap (q := fun v => v.depth < room ∧ v.Limited) max (all_map.1 ho).1
      fun e he =>
      have hs := (all_map.1 hs).2 e he
      have ho := (all_map.1 ho).2 e he
      ⟨readsIf_of_succ ((ih e he).1 hs.1 ho.1) room, readsIf_of_succ ((ih e he).2 hs.2 ho.2) room⟩
    rw [readWithin, pack_map]
    refine ((Item.lead_map hn).readsIf (m := "map length") ?_ ?_ hes).congr ?_
    · intro b hb
      rw [hb]
    · intro b width hb
      rw [hb]
    · rw [depth_map_lt, Limited, all_map, Bounded]
      exact ⟨fun h => ⟨fun e he => ⟨(h.2 e he).1.1, (h.2 e he).2.1⟩,
          h.1, fun e he => ⟨(h.2 e he).1.2, (h.2 e he).2.2⟩⟩,
        fun h => ⟨h.2.1, fun e he =>
          ⟨⟨(h.1 e he).1, (h.2.2 e he).1⟩, (h.1 e he).2, (h.2.2 e he).2⟩⟩⟩
  | nil =>
    refine readsIf_scalar trivial trivial ?_
    rw [pack, items]
    exact fun _ => rfl
  | bool b =>
    refine readsIf_scalar trivial trivial ?_
    rw [pack, items]
    cases b <;> exact fun _ => rfl
  | int n => exact readsIf_scalar trivial trivial (reads_int_pack n room)
  | float d => exact readsIf_scalar trivial trivial (reads_float_pack d room)

/-- Nothing beyond the limits comes back, not even where a size is too large for its numeral. -/
lemma read_pack_eq_ok {v : Value} (ho : v.Ordered) (max : Nat) (s : Bytes) :
    read max (v.pack ++ s) = .ok v s ↔ v.depth ≤ max ∧ v.Limited := by
  rw [← Nat.lt_succ_iff]
  refine ⟨fun h => ?_, fun h => ?_⟩
  · have hd := yields_readWithin max (max + 1) _ _ _ h
    exact (readsIf_readWithin (sized_of_admitted hd.admitted) ho max (max + 1)).eq_ok_iff.1 h
  · exact (readsIf_readWithin h.2.sized ho max (max + 1)).reads h s

/--
The bytes of a value are read as the value, up to where they end, just if the value is within the
limits and no deeper than is allowed. The check before writing asks for exactly this.
-/
theorem read_pack_iff {v : Value} (h : v.Built) (max : Nat) (s : Bytes) :
    (read max (v.pack ++ s) = .ok v s ↔ v.depth ≤ max ∧ v.Limited) ∧
      (v.bound = .ok () ↔ read Limits.depth (v.pack ++ s) = .ok v s) := by
  have ho := h.ordered
  exact ⟨read_pack_eq_ok ho max s, by rw [bound_eq_ok, read_pack_eq_ok ho]⟩

theorem read_pack_list_of_map :
    read 2 ((list [(ValueMap.ofList [(int 1, string "a")]).toValue]).pack ++ [0xc0]) =
      .ok (list [(ValueMap.ofList [(int 1, string "a")]).toValue]) [0xc0] := by
  have hb : (list [(ValueMap.ofList [(int 1, string "a")]).toValue]).Built := by
    refine .list _ fun v hv => ?_
    rw [List.mem_singleton.1 hv]
    refine .map _ (fun e he => ?_) fun e he => ?_
    · rw [List.mem_singleton.1 he]
      exact .int 1
    · rw [List.mem_singleton.1 he]
      exact .string "a"
  have hm : (ValueMap.ofList [(int 1, string "a")]).toValue = map [(int 1, string "a")] := rfl
  refine (read_pack_iff hb 2 [0xc0]).1.2 ?_
  rw [hm, ← Nat.lt_succ_iff, depth_list_lt, Limited, all_list]
  simp [all_map, depth, All, Bounded, Limits.items, Limits.body]
  decide

end NestedPath.Value
