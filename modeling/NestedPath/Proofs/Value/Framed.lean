import NestedPath.Proofs.Object
import NestedPath.Value.Unpack

/-!
Where a value ends depends on nothing that stands behind it.

The count of a list or map is held against all the bytes that are left, those behind the value
among them. This makes no difference to a value that is read, since it takes as many bytes for its
elements as the count calls for.
-/

namespace NestedPath

open Reader

namespace Reader

lemma takes_skip (max : Nat) (l : String) : Takes 1 (skip max l) :=
  (takes_byte l).bind fun b => Takes.after (framed_extent b l) fun x =>
    ((framed_bytes x.1 l).bind fun _ => framed_skipTimes (framed_skipWithin max l max) x.2).takes

end Reader

namespace Value

variable {α : Type} {r : Reader α} {element : Reader Value}

/-! ### Checks -/

lemma framed_limitLength (field : String) (n max : Nat) : Framed (limitLength field n max) := by
  unfold limitLength
  split
  · exact Framed.throw _
  · exact Framed.pure ()

/-- A check of a count is local if what it counts takes the bytes that it asks for. -/
lemma framed_limitCount {field : String} {n size : Nat} (hr : Framed r)
    (ht : Takes (n * size) r) : Framed (limitCount field n size >>= fun _ => r) := by
  intro s a t h
  obtain ⟨⟨⟩, u, hcount, h⟩ := bind_eq_ok.1 h
  have hu : s = u := by
    unfold limitCount at hcount
    split at hcount
    · cases hcount
      rfl
    · cases hcount
  subst hu
  obtain ⟨bs, rfl, hbs⟩ := hr _ _ _ h
  have hlen : n * size ≤ bs.length := by
    have := ht _ _ _ h
    rw [List.length_append] at this
    omega
  refine ⟨bs, rfl, fun rest => ?_⟩
  have hpass : limitCount field n size (bs ++ rest) = .ok () (bs ++ rest) :=
    if_pos (Bytes.atLeast_iff.2 (by rw [List.length_append]; omega))
  rw [bind_of_ok hpass]
  exact hbs rest

lemma framed_textOf (field : String) (body : Bytes) : Framed (textOf field body) := by
  unfold textOf
  split
  · exact Framed.pure _
  · exact Framed.throw _

/-! ### Texts, blobs and documents -/

lemma framed_readParticle (size : Nat) : Framed (readParticle size) := by
  refine (framed_limitLength _ _ _).bind fun _ => ?_
  split
  · exact Framed.pure _
  refine (framed_byte _).bind fun type => (framed_bytes _ _).bind fun body => ?_
  split
  · exact (framed_textOf _ _).bind fun _ => Framed.pure _
  · exact (framed_textOf _ _).bind fun _ => Framed.pure _
  · exact Framed.pure _
  · exact Framed.throw _

lemma framed_readBlob (size : Nat) : Framed (readBlob size) :=
  (framed_limitLength _ _ _).bind fun _ => (framed_bytes _ _).bind fun _ => Framed.pure _

/-! ### Lists and maps -/

lemma framed_readList (he : Framed element) (ht : Takes 1 element) (count : Nat) :
    Framed (readList element count) :=
  (framed_limitLength _ _ _).bind fun _ =>
    framed_limitCount ((he.times count []).bind fun _ => Framed.pure _)
      ((ht.times count []).bind fun _ => (Framed.pure _).takes)

lemma framed_readEntries (he : Framed element) (n : Nat) (es : List (Value × Value)) :
    Framed (readEntries element n es) := by
  induction n generalizing es with
  | zero => exact Framed.pure _
  | succ n ih =>
    refine he.bind fun k => ?_
    split
    · exact Framed.throw _
    · exact he.bind fun v => ih _

lemma takes_readEntries (ht : Takes 1 element) (n : Nat) (es : List (Value × Value)) :
    Takes (n * 2) (readEntries element n es) := by
  induction n generalizing es with
  | zero => exact (Framed.pure _).takes
  | succ n ih =>
    have hn : (n + 1) * 2 = 1 + (1 + n * 2) := by omega
    rw [hn]
    refine ht.bind fun k => ?_
    split
    · exact Takes.throw _ _
    · exact ht.bind fun v => ih _

/-- The entries of a map of `n + 1`, the first of which may mark the order. -/
def readOrdered (element : Reader Value) (max n : Nat) (ordered : Bool) : Reader Value :=
  if ordered then do
    skip 0 "map order"
    skip max "map order"
    readEntries element n []
  else readEntries element (n + 1) []

lemma readMap_succ (element : Reader Value) (max n : Nat) : readMap element max (n + 1) =
    limitLength "map" (n + 1) Limits.items >>= fun _ => limitCount "map" (n + 1) 2 >>= fun _ =>
      peek "map key" >>= fun x => readOrdered element max n (Marker.ofByte x).isExt := by
  rw [readMap, startsWithOrder, bind_assoc, if_neg (Nat.succ_ne_zero n)]
  rfl

lemma framed_readOrdered (he : Framed element) (max n : Nat) (ordered : Bool) :
    Framed (readOrdered element max n ordered) := by
  unfold readOrdered
  split
  · exact (framed_skip _ _).bind fun _ => (framed_skip _ _).bind fun _ => framed_readEntries he n []
  · exact framed_readEntries he (n + 1) []

/-- The two objects that mark the order take as many bytes as are asked for a key and a value. -/
lemma takes_readOrdered (ht : Takes 1 element) (max n : Nat) (ordered : Bool) :
    Takes ((n + 1) * 2) (readOrdered element max n ordered) := by
  unfold readOrdered
  split
  · have hn : (n + 1) * 2 = 1 + (1 + n * 2) := by omega
    rw [hn]
    exact (takes_skip _ _).bind fun _ => (takes_skip _ _).bind fun _ => takes_readEntries ht n []
  · exact takes_readEntries ht (n + 1) []

lemma framed_readMap (he : Framed element) (ht : Takes 1 element) (max count : Nat) :
    Framed (readMap element max count) := by
  rcases count with - | n
  · exact (framed_limitLength _ _ _).bind fun _ =>
      framed_limitCount (Framed.pure _) (Framed.pure _).takes
  rw [readMap_succ]
  have htakes (x : UInt8) := takes_readOrdered ht max n (Marker.ofByte x).isExt
  have hframed (x : UInt8) := framed_readOrdered he max n (Marker.ofByte x).isExt
  refine (framed_limitLength _ _ _).bind fun _ => ?_
  exact framed_limitCount (.peek hframed fun x => (htakes x).mono (by omega)) (.peek htakes)

/-! ### Whole values -/

/-- With so much room a value is read locally and takes at least a byte. -/
lemma framed_takes_readWithin (max room : Nat) :
    Framed (readWithin max room) ∧ Takes 1 (readWithin max room) := by
  induction room with
  | zero => exact ⟨Framed.throw _, Takes.throw 1 _⟩
  | succ room ih =>
    obtain ⟨he, ht⟩ := ih
    suffices hrest : ∀ b : UInt8, Framed _ from
      ⟨(framed_byte _).bind hrest, (takes_byte _).bind fun b => (hrest b).takes⟩
    intro b
    cases Marker.ofByte b with
    | fixint n => exact Framed.pure _
    | uint width => exact (framed_uint _ _).bind fun _ => Framed.pure _
    | int width => exact (framed_int _ _).bind fun _ => Framed.pure _
    | nil => exact Framed.pure _
    | bool b => exact Framed.pure _
    | float32 => exact (framed_uint _ _).bind fun _ => Framed.pure _
    | float64 => exact (framed_uint _ _).bind fun _ => Framed.pure _
    | fixstr size => exact framed_readParticle size
    | str width => exact (framed_uint _ _).bind framed_readParticle
    | bin width => exact (framed_uint _ _).bind framed_readBlob
    | fixarray count => exact framed_readList he ht count
    | array width => exact (framed_uint _ _).bind (framed_readList he ht)
    | fixmap count => exact framed_readMap he ht max count
    | map width => exact (framed_uint _ _).bind (framed_readMap he ht max)
    | _ => exact Framed.throw _

lemma framed_read (max : Nat) : Framed (read max) := (framed_takes_readWithin max _).1

end Value

end NestedPath
