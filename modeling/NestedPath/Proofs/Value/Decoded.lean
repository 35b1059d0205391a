import NestedPath.Proofs.Text
import NestedPath.Proofs.Reading
import NestedPath.Proofs.Value.Order
import NestedPath.Value.Unpack

/-!
What values come out of reading. Whatever the bytes, a value that is read is no deeper than the
room for it, has its keys in order, and is within bounds that are a little wider than those of
writing: a blob may come without a type byte, and a map without the entry that marks its order.
-/

namespace NestedPath.Value

open Reader

/-- The body or count of the value itself is within the bounds of reading. -/
def Admitted : Value → Prop
  | string s | geo s => s.utf8ByteSize + 1 ≤ Limits.body
  | blob bytes => bytes.length ≤ Limits.body
  | list vs => vs.length ≤ Limits.items
  | map es => es.length ≤ Limits.items
  | _ => True

/-- What every value has in common that is read with `room - 1` levels to go down. -/
structure Decoded (room : Nat) (v : Value) : Prop where
  depth_lt : v.depth < room
  admitted : v.All Admitted
  ordered : v.Ordered

lemma sized_of_admitted {v : Value} (h : v.All Admitted) : v.Sized := by
  have hb : Limits.body < 0xffffffff := by decide
  have hi : Limits.items < 0xffffffff := by decide
  refine h.mono fun w hw => ?_
  cases w <;> simp only [Admitted, Bounded] at hw ⊢ <;> omega

lemma yields_limitLength (field : String) (n max : Nat) :
    Yields (limitLength field n max) fun _ => n ≤ max := by
  unfold limitLength
  split
  · exact Yields.throw _
  · exact Yields.pure (by omega)

lemma yields_textOf (field : String) (body : Bytes) :
    Yields (textOf field body) fun s => s.utf8ByteSize = body.length := by
  unfold textOf
  split
  · rename_i h
    rw [ofUtf8?_eq_some.1 h]
    exact Yields.pure rfl
  · exact Yields.throw _

variable {room : Nat}

/-! ### Scalars -/

lemma decoded_scalar {v : Value} (h : v.Scalar) (ha : v.Admitted) : Decoded (room + 1) v where
  depth_lt := by rw [h.depth_eq]; exact Nat.succ_pos room
  admitted := h.all_iff.2 ha
  ordered := h.all_iff.2 (by cases v <;> first | exact h.elim | trivial)

lemma yields_readParticle (size : Nat) : Yields (readParticle size) (Decoded (room + 1)) := by
  refine (yields_limitLength _ _ _).bind fun _ hsize => ?_
  by_cases h : size = 0
  · rw [if_pos h]
    exact Yields.pure (decoded_scalar trivial (show 0 + 1 ≤ Limits.body by decide))
  rw [if_neg h]
  refine Yields.after fun type => (yields_bytes _ _).bind fun body hbody => ?_
  split
  · refine (yields_textOf _ _).bind fun s hs => Yields.pure (decoded_scalar trivial ?_)
    simp only [Admitted]
    omega
  · refine (yields_textOf _ _).bind fun s hs => Yields.pure (decoded_scalar trivial ?_)
    simp only [Admitted]
    omega
  · refine Yields.pure (decoded_scalar trivial ?_)
    simp only [Admitted]
    omega
  · exact Yields.throw _

lemma yields_readBlob (size : Nat) : Yields (readBlob size) (Decoded (room + 1)) := by
  refine (yields_limitLength _ _ _).bind fun _ hsize => ?_
  refine (yields_bytes _ _).bind fun body hbody => Yields.pure (decoded_scalar trivial ?_)
  rwa [Admitted, hbody]

/-! ### Lists and maps -/

lemma yields_readList {element : Reader Value} (h : Yields element (Decoded room)) (count : Nat) :
    Yields (readList element count) (Decoded (room + 1)) := by
  refine (yields_limitLength _ _ _).bind fun _ hcount => Yields.after fun _ => ?_
  refine (h.times count [] (by simp)).bind fun vs hvs => Yields.pure ?_
  obtain ⟨hl, hvs⟩ := hvs
  rw [List.length_nil, Nat.zero_add] at hl
  rw [← hl] at hcount
  exact ⟨depth_list_lt.2 fun v hv => (hvs v hv).depth_lt,
    all_list.2 ⟨hcount, fun v hv => (hvs v hv).admitted⟩,
    all_list.2 ⟨trivial, fun v hv => (hvs v hv).ordered⟩⟩

instance : Std.LawfulEqCmp descending where
  compare_self := compare_eq_eq.2 rfl
  eq_of_compare h := (compare_eq_eq.1 h).symm

instance : Std.TransCmp descending where
  eq_swap := compare_swap _ _
  isLE_trans hab hbc := @Std.TransCmp.isLE_trans _ Value.compare _ _ _ _ hbc hab

lemma ascends_reverse {es : List (Value × Value)} (h : Assoc.Ascends descending es) :
    Assoc.Ascends Value.compare es.reverse :=
  List.pairwise_reverse.2 h

/-- The entries so far have descending keys and there is at most one for each that was read. -/
lemma yields_readEntries {element : Reader Value} (h : Yields element (Decoded room))
    (n : Nat) (es : List (Value × Value)) (ha : Assoc.Ascends descending es)
    (hes : ∀ e ∈ es, Decoded room e.1 ∧ Decoded room e.2) (hn : es.length + n ≤ Limits.items) :
    Yields (readEntries element n es) (Decoded (room + 1)) := by
  induction n generalizing es with
  | zero =>
    have hes : ∀ e ∈ es.reverse, Decoded room e.1 ∧ Decoded room e.2 := fun e he =>
      hes e (List.mem_reverse.1 he)
    refine Yields.pure ⟨?_, ?_, ?_⟩
    · exact depth_map_lt.2 fun e he => ⟨(hes e he).1.depth_lt, (hes e he).2.depth_lt⟩
    · refine all_map.2 ⟨?_, fun e he => ⟨(hes e he).1.admitted, (hes e he).2.admitted⟩⟩
      rwa [Admitted, List.length_reverse]
    · exact all_map.2 ⟨ascends_reverse ha,
        fun e he => ⟨(hes e he).1.ordered, (hes e he).2.ordered⟩⟩
  | succ n ih =>
    refine h.bind fun k hk => ?_
    split
    · exact Yields.throw _
    -- An insertion keeps the order and adds one entry at most.
    refine h.bind fun v hv => ih _ (Assoc.ascends_insert k v ha) (fun e he => ?_) ?_
    · rcases Assoc.mem_insert he with rfl | he
      · exact ⟨hk, hv⟩
      · exact hes e he
    · have := Assoc.length_insert_le descending k v es
      omega

lemma yields_readMap {element : Reader Value} (h : Yields element (Decoded room))
    (max count : Nat) : Yields (readMap element max count) (Decoded (room + 1)) := by
  refine (yields_limitLength _ _ _).bind fun _ hcount => Yields.after fun _ => ?_
  have hes (n : Nat) (hn : n ≤ count) : Yields (readEntries element n []) (Decoded (room + 1)) :=
    yields_readEntries h n [] List.Pairwise.nil (by simp) (by simpa using Nat.le_trans hn hcount)
  split
  · exact hes 0 (Nat.zero_le _)
  refine Yields.after fun ordered => ?_
  split
  · exact Yields.after fun _ => Yields.after fun _ => hes _ (Nat.sub_le _ _)
  · exact hes _ (Nat.le_refl _)

/-! ### Whole values -/

lemma yields_readWithin (max room : Nat) : Yields (readWithin max room) (Decoded room) := by
  induction room with
  | zero => exact Yields.throw _
  | succ room ih =>
    refine Yields.after fun b => ?_
    have hscalar {v : Value} (h : v.Scalar) (ha : v.Admitted) :
        Yields (pure v) (Decoded (room + 1)) :=
      Yields.pure (decoded_scalar h ha)
    cases Marker.ofByte b with
    | fixint n => exact hscalar trivial trivial
    | uint width => exact Yields.after fun n => hscalar trivial trivial
    | int width => exact Yields.after fun n => hscalar trivial trivial
    | nil => exact hscalar trivial trivial
    | bool b => exact hscalar trivial trivial
    | float32 => exact Yields.after fun n => hscalar trivial trivial
    | float64 => exact Yields.after fun n => hscalar trivial trivial
    | fixstr size => exact yields_readParticle size
    | str width => exact Yields.after yields_readParticle
    | bin width => exact Yields.after yields_readBlob
    | fixarray count => exact yields_readList ih count
    | array width => exact Yields.after (yields_readList ih)
    | fixmap count => exact yields_readMap ih max count
    | map width => exact Yields.after (yields_readMap ih max)
    | _ => exact Yields.throw _

end NestedPath.Value
