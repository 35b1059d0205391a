import Mathlib.Algebra.BigOperators.Group.List.Basic
import Mathlib.Algebra.GroupWithZero.Nat
import NestedPath.Proofs.Extent

/-!
What it takes to hold a value that is read, and why a count may be held against the bytes left.

Every element of a list takes a byte and every entry of a map two, so a count that the bytes left
cannot hold fails later in any case: to check it first changes no value that is read. In the same
way each value within a value, and each byte of a text or blob, is paid for by a byte that was read.
-/

namespace NestedPath

open Reader

namespace Reader

variable {α β : Type} {r r' r'' : Reader α} {f f' : α → Reader β}

/-! ### Readers that succeed alike -/

/-- The two readers succeed on the same bytes, and with the same outcome. -/
def Agree (r r' : Reader α) : Prop := ∀ s a t, r s = .ok a t ↔ r' s = .ok a t

lemma Agree.refl (r : Reader α) : Agree r r := fun _ _ _ => Iff.rfl

lemma Agree.trans (h : Agree r r') (h' : Agree r' r'') : Agree r r'' :=
  fun s a t => (h s a t).trans (h' s a t)

lemma Agree.bind (hr : Agree r r') (hf : ∀ a, Agree (f a) (f' a)) :
    Agree (r >>= f) (r' >>= f') := by
  intro s b t
  rw [bind_eq_ok, bind_eq_ok]
  exact exists_congr fun a => exists_congr fun u => and_congr (hr s a u) (hf a u b t)

/-- A step that both take makes no difference. -/
lemma Agree.after (hf : ∀ a, Agree (f a) (f' a)) : Agree (r >>= f) (r >>= f') :=
  (Agree.refl r).bind hf

lemma Agree.times (h : Agree r r') (n : Nat) (done : List α) :
    Agree (times r n done) (times r' n done) := by
  induction n generalizing done with
  | zero => exact Agree.refl _
  | succ n ih => exact h.bind fun a => ih (a :: done)

/-! ### Readers that pay for their results -/

/--
Every success of the reader takes enough bytes to pay for its result, a byte for each unit of
weight, given what was in hand before.
-/
def Affords (hand : Nat) (weight : α → Nat) (r : Reader α) : Prop :=
  ∀ s a t, r s = .ok a t → weight a + t.length ≤ hand + s.length

variable {hand k n : Nat} {w : α → Nat} {w' : β → Nat} {a : α}

lemma Affords.pure (h : w a ≤ hand) : Affords hand w (pure a) := by
  intro s a' t hs
  obtain ⟨rfl, rfl⟩ := pure_eq_ok.1 hs
  omega

lemma Affords.throw (e : DecodeError) : Affords hand w (throw e) :=
  fun _ _ _ h => absurd h throw_ne_ok

lemma Affords.mono {hand' : Nat} (hle : hand ≤ hand') (hr : Affords hand w r) :
    Affords hand' w r := by
  intro s a t h
  have := hr _ _ _ h
  omega

/-- What one step leaves is in the hand of the next. -/
lemma Affords.bind (hr : Affords hand w r) (hf : ∀ a, Affords (w a) w' (f a)) :
    Affords hand w' (r >>= f) := by
  intro s b t h
  obtain ⟨a, u, h1, h2⟩ := bind_eq_ok.1 h
  have := hr _ _ _ h1
  have := hf a _ _ _ h2
  omega

/-- What is not needed is kept. -/
lemma Affords.keep (hr : Affords hand w r) (k : Nat) :
    Affords (k + hand) (fun a => k + w a) r := by
  intro s a t h
  have := hr _ _ _ h
  change k + w a + t.length ≤ k + hand + s.length
  omega

/-- A step that gives no bytes back costs nothing. -/
lemma Affords.after (hr : Takes 0 r) (hf : ∀ a, Affords hand w' (f a)) :
    Affords hand w' (r >>= f) := by
  intro s b t h
  obtain ⟨a, u, h1, h2⟩ := bind_eq_ok.1 h
  have := hr _ _ _ h1
  have := hf a _ _ _ h2
  omega

lemma affords_byte (l : String) : Affords 0 (fun _ => 1) (byte l) := by
  intro s x t h
  have := takes_byte l _ _ _ h
  rwa [Nat.add_comm, Nat.zero_add]

lemma affords_bytes (n : Nat) (l : String) : Affords 0 List.length (bytes n l) := by
  intro s front t h
  obtain ⟨rfl, -⟩ := bytes_eq_ok.1 h
  rw [List.length_append]
  omega

/-- A run of elements pays for each of them. -/
lemma Affords.times (h : Affords 0 w r) (n : Nat) (done : List α) :
    Affords (done.map w).sum (fun as => (as.map w).sum) (times r n done) := by
  induction n generalizing done with
  | zero =>
    refine Affords.pure ?_
    rw [List.map_reverse, List.sum_reverse]
  | succ n ih =>
    refine (h.keep (done.map w).sum).bind fun a => ?_
    have ih := ih (a :: done)
    rwa [List.map_cons, List.sum_cons, Nat.add_comm] at ih

end Reader

namespace Value

variable {element element' : Reader Value} {max room n m : Nat} {s t : Bytes}

/-! ### Reading without a look at the bytes left -/

/-- A value, given how a list and a map are read from behind their counts. -/
def readFront (list map : Nat → Reader Value) : Reader Value := do
  let b ← byte "value"
  match Marker.ofByte b with
  | .fixint n => return .int n
  | .uint width => return .int (Int64.ofNat (← uint width "value"))
  | .int width => return .int (← Reader.int width "value")
  | .nil => return .nil
  | .bool b => return .bool b
  | .float32 => return .float (Double.ofSingle (UInt32.ofNat (← uint 4 "float32")))
  | .float64 => return .float ⟨UInt64.ofNat (← uint 8 "float64")⟩
  | .fixstr size => readParticle size
  | .str width => readParticle (← uint width "string length")
  | .bin width => readBlob (← uint width "bytes length")
  | .fixarray count => list count
  | .array width => list (← uint width "list length")
  | .fixmap count => map count
  | .map width => map (← uint width "map length")
  | .ext _ | .fixext _ | .reserved => throw (.marker b "value")

/-- How a count is held against the bytes left: by its field, the count and the size of each. -/
abbrev CountCheck := String → Nat → Nat → Reader Unit

/-- No count is held against the bytes left. -/
def unguarded : CountCheck := fun _ _ _ => return ()

variable (check : CountCheck)

def readListBy (element : Reader Value) (count : Nat) : Reader Value := do
  limitLength "list" count Limits.items
  check "list" count 1
  return .list (← times element count [])

def readMapBy (element : Reader Value) (max count : Nat) : Reader Value := do
  limitLength "map" count Limits.items
  check "map" count 2
  readEntries element (← orderMark max count) []

/-- A value that is at most `room - 1` levels deep, its counts checked in the given way. -/
def readWithinBy (max : Nat) : Nat → Reader Value
  | 0 => throw (.tooDeep max)
  | room + 1 => readFront (readListBy check (readWithinBy max room))
      (readMapBy check (readWithinBy max room) max)

def readBy (max : Nat) : Reader Value := readWithinBy check max (max + 1)

variable {check}

lemma readWithin_succ (max room : Nat) : readWithin max (room + 1) =
    readFront (readList (readWithin max room)) (readMap (readWithin max room) max) := rfl

lemma readMapBy_limitCount (element : Reader Value) (max : Nat) :
    readMapBy limitCount element max = readMap element max :=
  funext fun n => (readMap_eq element max n).symm

lemma readWithinBy_limitCount (max room : Nat) :
    readWithinBy limitCount max room = readWithin max room := by
  induction room with
  | zero => rfl
  | succ room ih =>
    rw [readWithinBy, ih, readWithin_succ, readMapBy_limitCount]
    rfl

lemma readBy_limitCount (max : Nat) : readBy limitCount max = read max :=
  readWithinBy_limitCount max (max + 1)

/-! ### The checks are harmless -/

/-- What takes the bytes that a count calls for is read alike without the check of the count. -/
lemma agree_limitCount {r : Reader Value} {field : String} {n size : Nat}
    (ht : Takes (n * size) r) :
    Agree (limitCount field n size >>= fun _ => r) (unguarded field n size >>= fun _ => r) := by
  intro s v t
  rw [unguarded, pure_bind, bind_eq_ok]
  constructor
  · rintro ⟨x, u, hcount, h⟩
    obtain ⟨-, rfl⟩ := limitCount_eq_ok.1 hcount
    exact h
  · intro h
    have hlen := ht _ _ _ h
    exact ⟨(), s, limitCount_eq_ok.2 ⟨by omega, rfl⟩, h⟩

lemma agree_readList (h : Agree element element') (ht : Takes 1 element') (n : Nat) :
    Agree (readListBy limitCount element n) (readListBy unguarded element' n) := by
  refine Agree.after fun _ => ?_
  have htakes : Takes (n * 1) (times element' n [] >>= fun vs => pure (list vs)) :=
    (ht.times n []).bind fun _ => (Framed.pure _).takes
  refine Agree.trans (Agree.after fun _ => ?_) (agree_limitCount htakes)
  exact (h.times n []).bind fun _ => Agree.refl _

lemma agree_readEntries (h : Agree element element') (n : Nat) (es : List (Value × Value)) :
    Agree (readEntries element n es) (readEntries element' n es) := by
  induction n generalizing es with
  | zero => exact Agree.refl _
  | succ n ih =>
    refine h.bind fun k => ?_
    split
    · exact Agree.refl _
    · exact h.bind fun v => ih _

/-- An entry that marks the order takes two bytes like any other. -/
lemma orderMark_length (h : orderMark max n s = .ok m t) :
    m ≤ n ∧ t.length + (n - m) * 2 ≤ s.length := by
  obtain ⟨k, mark, hmark, rfl, rfl, -⟩ := orderMark_eq_ok.1 h
  have := hmark.le_length
  rw [List.length_append]
  omega

lemma takes_orderMark_readEntries (ht : Takes 1 element) (max n : Nat) :
    Takes (n * 2) (orderMark max n >>= fun m => readEntries element m []) := by
  intro s v t h
  obtain ⟨m, u, hm, hu⟩ := bind_eq_ok.1 h
  have := orderMark_length hm
  have := takes_readEntries ht m [] _ _ _ hu
  omega

lemma agree_readMap (h : Agree element element') (ht : Takes 1 element') (max n : Nat) :
    Agree (readMapBy limitCount element max n) (readMapBy unguarded element' max n) := by
  refine Agree.after fun _ => ?_
  refine Agree.trans (Agree.after fun _ => ?_)
    (agree_limitCount (takes_orderMark_readEntries ht max n))
  exact Agree.after fun m => agree_readEntries h m []

lemma agree_readFront {list list' map map' : Nat → Reader Value}
    (hlist : ∀ n, Agree (list n) (list' n)) (hmap : ∀ n, Agree (map n) (map' n)) :
    Agree (readFront list map) (readFront list' map') := by
  refine Agree.after fun b => ?_
  cases Marker.ofByte b with
  | fixarray n => exact hlist n
  | array width => exact Agree.after hlist
  | fixmap n => exact hmap n
  | map width => exact Agree.after hmap
  | _ => exact Agree.refl _

/-- Whatever is read with the checks is read without them, and the other way round. -/
lemma agree_readWithin (max room : Nat) :
    Agree (readWithin max room) (readWithinBy unguarded max room) := by
  induction room with
  | zero => exact Agree.refl _
  | succ room ih =>
    -- The elements that are read without checks take a byte since those read with checks do.
    have ht : Takes 1 (readWithinBy unguarded max room) := fun s v t h =>
      (framed_takes_readWithin max room).2 s v t ((ih s v t).2 h)
    rw [← readWithinBy_limitCount] at ih ⊢
    exact agree_readFront (agree_readList ih ht) (agree_readMap ih ht max)

/-! ### The values within a value -/

/-- The sum over the value and all values within it. -/
def total (f : Value → Nat) : Value → Nat
  | list vs => f (list vs) + (vs.map fun v => v.total f).sum
  | map es => f (map es) + (es.map fun e => e.1.total f + e.2.total f).sum
  | v => f v
termination_by v => sizeOf v
decreasing_by
  · have := List.sizeOf_lt_of_mem ‹v ∈ vs›
    simp only [list.sizeOf_spec]
    omega
  · exact sizeOf_fst_lt ‹e ∈ es›
  · exact sizeOf_snd_lt ‹e ∈ es›

def nodes (v : Value) : Nat := v.total fun _ => 1

def bodySize : Value → Nat
  | string s | geo s => s.utf8ByteSize
  | blob bytes => bytes.length
  | _ => 0

def bodies (v : Value) : Nat := v.total bodySize

/-- One for the value and each value within it, and one for each byte of their texts and blobs. -/
def weight (v : Value) : Nat := v.total fun w => 1 + w.bodySize

variable {f g : Value → Nat} {v : Value}

lemma total_list (vs : List Value) :
    (list vs).total f = f (list vs) + (vs.map (total f)).sum := by rw [total]

lemma total_map (es : List (Value × Value)) :
    (map es).total f = f (map es) + (es.map fun e => e.1.total f + e.2.total f).sum := by
  rw [total]

lemma Scalar.total_eq (h : v.Scalar) : v.total f = f v := by
  cases v <;> first | exact h.elim | rw [total] <;> nofun

lemma total_add (v : Value) : v.total (fun w => f w + g w) = v.total f + v.total g := by
  induction v with
  | list vs ih =>
    rw [total_list, total_list, total_list, List.map_congr_left ih, List.sum_map_add]
    omega
  | map es ih =>
    have hes : ∀ e ∈ es, e.1.total (fun w => f w + g w) + e.2.total (fun w => f w + g w) =
        (e.1.total f + e.2.total f) + (e.1.total g + e.2.total g) := by
      intro e he
      rw [(ih e he).1, (ih e he).2]
      omega
    rw [total_map, total_map, total_map, List.map_congr_left hes, List.sum_map_add]
    omega
  | _ => simp only [total]

lemma weight_eq (v : Value) : v.weight = v.nodes + v.bodies := total_add v

lemma Scalar.weight_eq (h : v.Scalar) : v.weight = 1 + v.bodySize := h.total_eq

lemma weight_list (vs : List Value) : (list vs).weight = 1 + (vs.map weight).sum := total_list vs

def entryWeight (e : Value × Value) : Nat := e.1.weight + e.2.weight

lemma weight_map (es : List (Value × Value)) :
    (map es).weight = 1 + (es.map entryWeight).sum := total_map es

/-! ### Every value is paid for -/

lemma affords_textOf (field : String) (body : Bytes) :
    Affords (1 + body.length) (fun s => 1 + s.utf8ByteSize) (textOf field body) := by
  intro s x t h
  obtain rfl := textOf_eq_ok h
  have hsize := yields_textOf field body _ _ _ h
  change 1 + x.utf8ByteSize + s.length ≤ 1 + body.length + s.length
  rw [hsize]

lemma affords_body {n : Nat} (h : v.Scalar) (hsize : v.bodySize = n) :
    Affords (1 + n) weight (pure v) :=
  Affords.pure (by rw [h.weight_eq, hsize])

lemma affords_scalar (h : v.Scalar) (hsize : v.bodySize = 0) : Affords 1 weight (pure v) := by
  simpa using affords_body h hsize

lemma affords_readParticle (size : Nat) : Affords 1 weight (readParticle size) := by
  refine Affords.after (framed_limitLength _ _ _).takes fun _ => ?_
  split
  · exact affords_scalar trivial rfl
  refine Affords.after (framed_byte _).takes fun type => ?_
  refine ((affords_bytes _ _).keep 1).bind fun body => ?_
  split
  · exact (affords_textOf _ body).bind fun s => affords_body trivial rfl
  · exact (affords_textOf _ body).bind fun s => affords_body trivial rfl
  · exact affords_body trivial rfl
  · exact Affords.throw _

lemma affords_readBlob (size : Nat) : Affords 1 weight (readBlob size) := by
  refine Affords.after (framed_limitLength _ _ _).takes fun _ => ?_
  exact ((affords_bytes _ _).keep 1).bind fun body => affords_body trivial rfl

lemma takes_limitCount (field : String) (n size : Nat) : Takes 0 (limitCount field n size) := by
  intro s x t h
  obtain ⟨-, rfl⟩ := limitCount_eq_ok.1 h
  exact Nat.le_refl _

lemma affords_readList (h : Affords 0 weight element) (n : Nat) :
    Affords 1 weight (readList element n) := by
  refine Affords.after (framed_limitLength _ _ _).takes fun _ => ?_
  refine Affords.after (takes_limitCount _ _ _) fun _ => ?_
  exact ((h.times n []).keep 1).bind fun vs => Affords.pure (weight_list vs).le

/-- An entry that is set weighs no more than itself beside the others. -/
lemma sum_insert_le (k v : Value) (es : List (Value × Value)) :
    ((Assoc.insert descending k v es).map entryWeight).sum ≤
      (es.map entryWeight).sum + (k.weight + v.weight) := by
  obtain ⟨below, above, hins, ⟨rfl, -⟩ | ⟨old, rfl, -⟩⟩ := Assoc.insert_cases descending k v es
  all_goals
    rw [hins]
    simp only [List.map_append, List.map_cons, List.sum_append, List.sum_cons, entryWeight]
    omega

lemma affords_readEntries (h : Affords 0 weight element) (n : Nat) (es : List (Value × Value)) :
    Affords (1 + (es.map entryWeight).sum) weight (readEntries element n es) := by
  induction n generalizing es with
  | zero =>
    refine Affords.pure ?_
    rw [weight_map, List.map_reverse, List.sum_reverse]
  | succ n ih =>
    refine (h.keep (1 + (es.map entryWeight).sum)).bind fun k => ?_
    split
    · exact Affords.throw _
    refine (h.keep (1 + (es.map entryWeight).sum + k.weight)).bind fun v => (ih _).mono ?_
    have := sum_insert_le k v es
    omega

lemma takes_orderMark (max n : Nat) : Takes 0 (orderMark max n) := by
  intro s m t h
  have := orderMark_length h
  omega

lemma affords_readMap (h : Affords 0 weight element) (max n : Nat) :
    Affords 1 weight (readMap element max n) := by
  rw [readMap_eq]
  refine Affords.after (framed_limitLength _ _ _).takes fun _ => ?_
  refine Affords.after (takes_limitCount _ _ _) fun _ => ?_
  exact Affords.after (takes_orderMark max n) fun m => affords_readEntries h m []

/-- The first byte pays for the value itself, the others for what it holds. -/
lemma affords_readFront {list map : Nat → Reader Value} (hlist : ∀ n, Affords 1 weight (list n))
    (hmap : ∀ n, Affords 1 weight (map n)) : Affords 0 weight (readFront list map) := by
  refine (affords_byte _).bind fun b => ?_
  have huint {l : String} {width : Nat} {r : Nat → Reader Value}
      (hr : ∀ n, Affords 1 weight (r n)) : Affords 1 weight (uint width l >>= r) :=
    Affords.after (framed_uint _ _).takes hr
  cases Marker.ofByte b with
  | fixint n => exact affords_scalar trivial rfl
  | uint width => exact huint fun n => affords_scalar trivial rfl
  | int width => exact Affords.after (framed_int _ _).takes fun n => affords_scalar trivial rfl
  | nil => exact affords_scalar trivial rfl
  | bool b => exact affords_scalar trivial rfl
  | float32 => exact huint fun n => affords_scalar trivial rfl
  | float64 => exact huint fun n => affords_scalar trivial rfl
  | fixstr size => exact affords_readParticle size
  | str width => exact huint affords_readParticle
  | bin width => exact huint affords_readBlob
  | fixarray n => exact hlist n
  | array width => exact huint hlist
  | fixmap n => exact hmap n
  | map width => exact huint hmap
  | _ => exact Affords.throw _

lemma affords_readWithin (max room : Nat) : Affords 0 weight (readWithin max room) := by
  induction room with
  | zero => exact Affords.throw _
  | succ room ih =>
    rw [readWithin_succ]
    exact affords_readFront (affords_readList ih) (affords_readMap ih max)

end Value

namespace Cursor

open Value

/--
The reader of values holds every count against the bytes left. Without these checks the same values
are read from any position, up to the same positions. The values that are read, one within the
other, and the bytes of their texts and blobs are together no more than the bytes between the two.
-/
theorem read_value_unguarded (max : Nat) : readBy limitCount max = Value.read max ∧
    ∀ data start v c,
      ((ofPosition data start).read (Value.read max) = (.ok v, c) ↔
        (ofPosition data start).read (readBy unguarded max) = (.ok v, c)) ∧
      ((ofPosition data start).read (Value.read max) = (.ok v, c) →
        start + (v.nodes + v.bodies) ≤ c.position) := by
  refine ⟨readBy_limitCount max, fun data start v c => ⟨?_, fun h => ?_⟩⟩
  · rw [read_eq_ok, read_eq_ok]
    exact and_congr_left fun _ => agree_readWithin max (max + 1) _ v c.rest
  · obtain ⟨hread, rfl⟩ := read_eq_ok.1 h
    have hpaid := affords_readWithin max (max + 1) _ v c.rest hread
    have htaken := (framed_takes_readWithin max (max + 1)).2 _ v c.rest hread
    rw [weight_eq, List.length_drop] at hpaid
    rw [List.length_drop] at htaken
    rw [position]
    omega

set_option maxRecDepth 2000 in
/-- Of the eight bytes of a list five pay for values and two more for the bytes of a blob. -/
theorem read_value_unguarded_blob :
    (ofPosition [7, 0x92, 0x81, 5, 0xa3, 4, 1, 2, 0xc0, 9] 1).read (readBy unguarded 2) =
        (.ok (.list [.map [(.int 5, .blob [1, 2])], .nil]),
          ofPosition [7, 0x92, 0x81, 5, 0xa3, 4, 1, 2, 0xc0, 9] 9) ∧
      (list [.map [(.int 5, .blob [1, 2])], .nil]).nodes = 5 ∧
      (list [.map [(.int 5, .blob [1, 2])], .nil]).bodies = 2 ∧
      1 + ((list [.map [(.int 5, .blob [1, 2])], .nil]).nodes +
        (list [.map [(.int 5, .blob [1, 2])], .nil]).bodies) ≤ 9 := by
  have hread : (ofPosition [7, 0x92, 0x81, 5, 0xa3, 4, 1, 2, 0xc0, 9] 1).read (Value.read 2) =
      (.ok (.list [.map [(.int 5, .blob [1, 2])], .nil]),
        ofPosition [7, 0x92, 0x81, 5, 0xa3, 4, 1, 2, 0xc0, 9] 9) := rfl
  obtain ⟨hiff, hcost⟩ := (read_value_unguarded 2).2 _ _ _ _
  exact ⟨hiff.1 hread, by simp [nodes, total], by simp [bodies, total, bodySize], hcost hread⟩

end Cursor

end NestedPath
