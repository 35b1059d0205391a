import NestedPath.Expr.Compile
import NestedPath.Path.Text
import NestedPath.Proofs.Base64
import NestedPath.Proofs.Object
import NestedPath.Proofs.Value.RoundTrip

/-!
What is stored for a path is read back as the path: segment by segment, the id and then the
payload, which the check before writing has found to be within the limits of reading.
-/

namespace NestedPath

open Reader

namespace Segment

/-- The segment was made by one of the named constructors, from values that were built. -/
inductive Built : Segment → Prop
  | listIndex (n : Int64) : Built (listIndex n)
  | listIndexCreate (n : Int64) (order : ListOrder) (pad : Bool) :
      Built (listIndexCreate n order pad)
  | listRank (n : Int64) : Built (listRank n)
  | listValue (v : Value) (h : v.Built) : Built (listValue v)
  | mapIndex (n : Int64) : Built (mapIndex n)
  | mapRank (n : Int64) : Built (mapRank n)
  | mapKey (k : Value) (h : k.Built) : Built (mapKey k)
  | mapKeyCreate (k : Value) (order : MapOrder) (h : k.Built) : Built (mapKeyCreate k order)
  | mapValue (v : Value) (h : v.Built) : Built (mapValue v)
  | allChildren : Built allChildren
  | childrenWhere (test : Expr) : Built (childrenWhere test)

/-- Its literal has maps in order, or its filter goes with the plain id of a filtered step. -/
def Plain (s : Segment) : Prop :=
  match s.payload with
  | .literal v => v.Ordered
  | .filter _ => s.id = Kind.allChildren.id

variable {s : Segment}

lemma Built.plain (h : s.Built) : s.Plain := by
  have hint (n : Int64) : (Value.int n).Ordered := (Value.Built.int n).ordered
  cases h with
  | listIndex n => exact hint n
  | listIndexCreate n order pad => exact hint n
  | listRank n => exact hint n
  | listValue v h => exact h.ordered
  | mapIndex n => exact hint n
  | mapRank n => exact hint n
  | mapKey k h => exact h.ordered
  | mapKeyCreate k order h => exact h.ordered
  | mapValue v h => exact h.ordered
  | allChildren => rfl
  | childrenWhere test => rfl

/-- The plain id of a filtered step goes with no literal. -/
lemma id_ne_of_literal {v : Value} (h : s.payload = .literal v) : s.id ≠ Kind.allChildren.id := by
  intro hid
  have hf := s.isFilter_iff.2 (by rw [hid]; rfl)
  rw [h] at hf
  cases hf

/-! ### One segment -/

lemma toInt_id (id : UInt32) : (Int64.ofNat id.toNat).toInt = id.toNat :=
  Int64.toInt_ofNat_of_lt (by have : id.toNat < 1 <<< 32 := id.toNat_lt; omega)

/-- A literal whose counts have room in their headers is read back just if it is within bounds. -/
lemma readsIf_literal {v : Value} (h : s.payload = .literal v) (hs : v.Sized) (ho : v.Ordered) :
    ReadsIf (v.bound = .ok ()) (Path.readPayload .standard s.id) v.pack (.literal v) := by
  have hv := Value.readsIf_readWithin hs ho Limits.depth (Limits.depth + 1)
  have hbound : v.bound = .ok () ↔ v.depth < Limits.depth + 1 ∧ v.Limited := by
    rw [Value.bound_eq_ok, Nat.lt_succ_iff]
  unfold Path.readPayload
  rw [if_neg (id_ne_of_literal h)]
  exact (hv.bind_pure Payload.literal).congr hbound.symm

lemma reads_payload (hp : s.Plain) (hb : s.bound = .ok ()) :
    Reads (Path.readPayload .standard s.id) (Item.pack s.payload.items) s.payload := by
  unfold Plain at hp
  unfold bound at hb
  cases hs : s.payload with
  | literal v =>
    rw [hs] at hp hb
    exact (readsIf_literal hs (Value.bound_eq_ok.1 hb).2.sized hp).reads hb
  | filter p =>
    rw [hs] at hp hb
    have ho : Reads (object Limits.depth "context filter") p.bytes p.bytes :=
      fun _ => object_eq_ok.2 ⟨rfl, Program.bound_eq_ok.1 hb⟩
    unfold Path.readPayload
    rw [if_pos hp, Payload.items, Item.pack_cons, Item.pack_nil, List.append_nil]
    exact ho.bind_nil (Reads.pure _)

/-- A segment is read from its id, in any form, and its payload, if that can be read. -/
lemma readsIf_segment_of {limits : ReadLimits} {q : Prop} {hd bs : Bytes}
    (hn : NumberLead (Int64.ofNat s.id.toNat) hd)
    (hp : ReadsIf q (Path.readPayload limits s.id) bs s.payload) :
    ReadsIf q (Path.readSegment limits) (hd ++ bs) s := by
  have hlt : s.id.toNat < 1 <<< 32 := s.id.toNat_lt
  have hid := toInt_id s.id
  refine (hn.reads_number _).bind_if ?_
  rw [if_neg (by omega), hid, Int.toNat_natCast, UInt32.ofNat_toNat, ← List.append_nil bs]
  refine hp.bind_reads ?_
  rw [ofParts?, dif_pos s.fits]
  exact Reads.pure s

lemma reads_segment_of {limits : ReadLimits} {hd bs : Bytes}
    (hn : NumberLead (Int64.ofNat s.id.toNat) hd)
    (hp : Reads (Path.readPayload limits s.id) bs s.payload) :
    Reads (Path.readSegment limits) (hd ++ bs) s :=
  (readsIf_segment_of hn hp.readsIf).reads trivial

lemma reads_segment (hp : s.Plain) (hb : s.bound = .ok ()) :
    Reads (Path.readSegment .standard) (Item.pack (s.items 0)) s := by
  rw [items, Item.pack_cons, UInt32.or_zero]
  exact reads_segment_of (Item.lead_number _) (reads_payload hp hb)

end Segment

namespace Path

variable {p : Path}

/-! ### Whole paths -/

/-- The path can be written: it has as many segments as may be and each of them is within bounds. -/
structure Writable (p : Path) : Prop where
  ne_nil : p ≠ []
  length_le : p.length ≤ Limits.segments
  bound : ∀ s ∈ p, s.bound = .ok ()

lemma length_single_le (s : Segment) : [s].length ≤ Limits.segments := by
  rw [List.length_singleton]
  decide

lemma writable_single {s : Segment} (h : s.bound = .ok ()) : Writable [s] :=
  ⟨List.cons_ne_nil _ _, length_single_le s, List.forall_mem_singleton.2 h⟩

lemma check_eq_ok {task : Task} : check task p = .ok () ↔ p.Writable := by
  unfold check
  split
  · rename_i h
    exact ⟨nofun, fun hw => absurd (List.isEmpty_iff.1 h) hw.ne_nil⟩
  · rename_i hne
    rw [List.isEmpty_iff] at hne
    split
    · exact ⟨nofun, fun hw => by have := hw.length_le; omega⟩
    · rw [except_forM_eq_ok]
      exact ⟨fun h => ⟨hne, by omega, h⟩, fun hw => hw.bound⟩

lemma Writable.writePath (h : p.Writable) (flag : UInt32) :
    ∃ w, Writer.empty.writePath flag p = (.ok (), w) ∧ w.bytes = Item.pack (items flag p) := by
  have hc : check .encode p = .ok () := check_eq_ok.2 h
  refine ⟨Writer.empty.write (items flag p), ?_, rfl⟩
  rw [Writer.writePath, encode, hc]
  rfl

/-- What is made of a path behind the check is made if the path can be written. -/
lemma check_bind_eq_ok {α : Type} {task : Task} {a b : α} :
    (check task p >>= fun _ => pure a) = .ok b ↔ p.Writable ∧ a = b := by
  rw [except_seq_eq_ok, check_eq_ok]
  change _ ∧ Except.ok _ = Except.ok _ ↔ _
  rw [Except.ok.injEq]

lemma toText_eq_ok {text : String} :
    toText p = .ok text ↔ p.Writable ∧ Base64.encode (Item.pack (items 0 p)) = text := by
  rw [toText, check_bind_eq_ok]

lemma dropLast_append_getLast? (p : Path) : p.dropLast ++ p.getLast?.toList = p := by
  rcases p.eq_nil_or_concat with rfl | ⟨p, s, rfl⟩
  · rfl
  · simp

/-- Without a flag all segments are written alike. -/
lemma items_zero (p : Path) :
    items 0 p = .array (2 * p.length) :: p.flatMap (Segment.items 0) := by
  rw [items, ← List.flatMap_append, dropLast_append_getLast?]

lemma readLength_of_reads {bs rest : Bytes} {n : Nat} (h : Reads (arrayHeader "context") bs n) :
    readLength (bs ++ rest) = .ok n rest := by
  rw [readLength, h rest]

/-- A path is read from the count of its elements, in any form, and those of its segments. -/
lemma decode_of_reads {hd : Bytes} {code : Segment → Bytes}
    (hn : Lead .fixarray .array (2 * p.length) hd) (hne : p ≠ [])
    (hlen : p.length ≤ Limits.segments)
    (hs : ∀ s ∈ p, Reads (readSegment .standard) (code s) s) :
    decode .standard (hd ++ p.flatMap code) = .ok p := by
  have hpos : 0 < p.length := List.length_pos_iff.2 hne
  have hmax : ¬ ReadLimits.standard.segments < p.length := Nat.not_lt.2 hlen
  have hsegs := Reads.times p hs []
  rw [List.append_nil] at hsegs
  have hend : read .standard (hd ++ p.flatMap code) = .ok p [] := by
    rw [read, bind_of_ok (readLength_of_reads (hn.reads_arrayHeader _)), if_neg (by omega),
      if_neg (by omega), Nat.mul_div_cancel_left _ (by decide), if_neg hmax]
    exact bind_of_ok hsegs
  rw [decode, runOn, hend]

/-- What is written for a path of such segments is read as the path. -/
lemma decode_pack (hp : ∀ s ∈ p, s.Plain) (hw : p.Writable) :
    decode .standard (Item.pack (items 0 p)) = .ok p := by
  have hlen : p.length ≤ 256 := hw.length_le
  rw [items_zero, Item.pack_cons, Item.pack_flatMap]
  exact decode_of_reads (Item.lead_array (by omega)) hw.ne_nil hlen fun s hs =>
    Segment.reads_segment (hp s hs) (hw.bound s hs)

lemma ofText_toText_of_plain {text w x : String} (hp : ∀ s ∈ p, s.Plain) (h : toText p = .ok text)
    (hw : ∀ c ∈ w.toList, isBlank c = true) (hx : ∀ c ∈ x.toList, isBlank c = true) :
    ofText .standard (w ++ text ++ x) = .ok p := by
  obtain ⟨hc, rfl⟩ := toText_eq_ok.1 h
  rw [ofText, Base64.decode_encode _ hw hx]
  exact decode_pack hp hc

/--
A path of named segments is read back from its text, whatever blanks stand around it, and is then
written as the same text again.
-/
theorem ofText_toText {text w x : String} (hp : ∀ s ∈ p, s.Built) (h : toText p = .ok text)
    (hw : ∀ c ∈ w.toList, isBlank c = true) (hx : ∀ c ∈ x.toList, isBlank c = true) :
    ∃ q, ofText .standard (w ++ text ++ x) = .ok q ∧ q = p ∧ toText q = .ok text :=
  ⟨p, ofText_toText_of_plain (fun s hs => (hp s hs).plain) h hw hx, rfl, h⟩

theorem ofText_toText_filtered :
    ∃ q, ofText .standard (" " ++ "lCKiA2EEkwOTegIBAw==" ++ "\u3000\n") = .ok q ∧
      q = [.mapKey (.string "a"),
        .childrenWhere (.compare .gt (.loopVar .value .int) (.literal (.int 3)))] ∧
      toText q = .ok "lCKiA2EEkwOTegIBAw==" := by
  have htest : Expr.compile (.compare .gt (.loopVar .value .int) (.literal (.int 3))) =
      ⟨[0x93, 3, 0x93, 0x7a, 2, 1, 3]⟩ := by
    simp only [Expr.compile, Expr.items, Expr.literalItems, Value.items]
    rfl
  have hpack : Item.pack (items 0 [.mapKey (.string "a"),
      .childrenWhere (.compare .gt (.loopVar .value .int) (.literal (.int 3)))]) =
      [0x94, 0x22, 0xa2, 3, 0x61, 4, 0x93, 3, 0x93, 0x7a, 2, 1, 3] := by
    rw [items_zero, Segment.childrenWhere, htest]
    simp only [List.flatMap_cons, Segment.items, Segment.mapKey, Segment.Payload.items, Value.items]
    rfl
  refine ofText_toText ?_ (toText_eq_ok.2 ⟨⟨List.cons_ne_nil _ _, by decide, ?_⟩, ?_⟩)
    (by simp [isBlank]) (by simp [isBlank])
  · intro s hs
    rcases List.mem_cons.1 hs with rfl | hs
    · exact .mapKey _ (.string "a")
    · rw [List.mem_singleton.1 hs]
      exact .childrenWhere _
  · intro s hs
    rcases List.mem_cons.1 hs with rfl | hs
    · rfl
    · rw [List.mem_singleton.1 hs, Segment.childrenWhere, htest]
      rfl
  · rw [hpack]
    simp [Base64.encode, threes, chunksOnto, Base64.group, Base64.digit]

end Path

end NestedPath
