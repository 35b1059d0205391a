import NestedPath.Proofs.Object
import NestedPath.Value.Unpack

/-!
Where readers go, whether they succeed or fail.

A reader only goes forward: what it leaves is the end of what it was given. Readers of objects and
values call themselves for what these hold, as often as a count says that may be far beyond the
bytes left, and down to any limit of depth. They are followed here from call to call. No two calls
are made at one place, each stands behind the last, and so there are hardly more of them than bytes.
-/

namespace NestedPath

open Reader

namespace Reader

variable {α β : Type} {r : Reader α} {f : α → Reader β} {a : α} {s t : Bytes}

/-! ### Forward -/

/-- The bytes that are left, whether the reader succeeds or fails. -/
def left (r : Reader α) (s : Bytes) : Bytes :=
  match r s with
  | .ok _ t | .error _ t => t

lemma left_of_ok (h : r s = .ok a t) : left r s = t := by
  rw [left, h]

lemma left_of_error {e : DecodeError} (h : r s = .error e t) : left r s = t := by
  rw [left, h]

lemma left_bind_of_ok (h : r s = .ok a t) : left (r >>= f) s = left (f a) t := by
  rw [left, bind_of_ok h, left]

lemma left_bind_of_error {e : DecodeError} (h : r s = .error e t) : left (r >>= f) s = t :=
  left_of_error (bind_of_error h)

/-- What is left is the end of what there was. -/
def Forward (r : Reader α) : Prop := ∀ s, left r s <:+ s

lemma Forward.pure (a : α) : Forward (pure a : Reader α) := fun s => List.suffix_refl s

lemma Forward.throw (e : DecodeError) : Forward (throw e : Reader α) := fun s => List.suffix_refl s

lemma Forward.bind (hr : Forward r) (hf : ∀ a, Forward (f a)) : Forward (r >>= f) := by
  intro s
  have hs := hr s
  cases h : r s with
  | ok a t =>
    rw [left_of_ok h] at hs
    rw [left_bind_of_ok h]
    exact (hf a t).trans hs
  | error e t =>
    rw [left_of_error h] at hs
    rwa [left_bind_of_error h]

/-- The reader takes just so many bytes, or it fails and takes none. -/
def AllOrNone (n : Nat) (r : Reader α) : Prop :=
  ∀ s, (∃ a, n ≤ s.length ∧ r s = .ok a (s.drop n)) ∨ ∃ e, r s = .error e s

lemma AllOrNone.forward {n : Nat} (h : AllOrNone n r) : Forward r := by
  intro s
  rcases h s with ⟨a, -, hs⟩ | ⟨e, hs⟩
  · rw [left_of_ok hs]
    exact List.drop_suffix n s
  · simp only [left_of_error hs, List.suffix_refl]

lemma AllOrNone.map {n : Nat} (h : AllOrNone n r) (g : α → β) :
    AllOrNone n (r >>= fun a => Pure.pure (g a)) := by
  intro s
  rcases h s with ⟨a, hn, hs⟩ | ⟨e, hs⟩
  · exact .inl ⟨g a, hn, bind_of_ok hs⟩
  · exact .inr ⟨e, bind_of_error hs⟩

lemma allOrNone_peek (l : String) : AllOrNone 0 (peek l)
  | [] => .inr ⟨_, rfl⟩
  | b :: _ => .inl ⟨b, Nat.zero_le _, rfl⟩

lemma allOrNone_byte (l : String) : AllOrNone 1 (byte l)
  | [] => .inr ⟨_, rfl⟩
  | b :: _ => .inl ⟨b, Nat.succ_pos _, rfl⟩

lemma allOrNone_bytes (n : Nat) (l : String) : AllOrNone n (bytes n l) := by
  intro s
  unfold bytes
  rcases h : s.split? n with - | ⟨front, rest⟩
  · exact .inr ⟨_, rfl⟩
  · obtain ⟨rfl, rfl⟩ := Bytes.split?_eq_some.1 h
    refine .inl ⟨front, ?_, ?_⟩
    · rw [List.length_append]
      omega
    · rw [List.drop_left]

lemma allOrNone_uint (w : Nat) (l : String) : AllOrNone w (uint w l) := (allOrNone_bytes w l).map _

lemma forward_int (w : Nat) (l : String) : Forward (int w l) := ((allOrNone_uint w l).map _).forward

lemma forward_extent (b : UInt8) (l : String) : Forward (extent b l) := by
  rcases extent_cases b with ⟨x, h⟩ | ⟨w, g, h⟩ | h
  · rw [h]
    exact Forward.pure x
  · rw [h]
    exact ((allOrNone_uint w l).map g).forward
  · rw [h]
    exact Forward.throw _

lemma forward_number (l : String) : Forward (number l) := by
  refine (allOrNone_byte l).forward.bind fun b => ?_
  unfold numberAfter?
  cases Marker.ofByte b with
  | fixint n => exact Forward.pure n
  | uint width => exact ((allOrNone_uint width l).map _).forward
  | int width => exact forward_int width l
  | _ => exact Forward.throw _

lemma forward_arrayHeader (l : String) : Forward (arrayHeader l) := by
  refine (allOrNone_byte l).forward.bind fun b => ?_
  cases Marker.ofByte b with
  | fixarray n => exact Forward.pure n
  | array width => exact (allOrNone_uint width l).forward
  | _ => exact Forward.throw _

lemma left_taken (r : Reader Unit) (s : Bytes) : left (taken r) s = left r s := by
  cases h : r s <;> simp only [left, taken, h]

end Reader

namespace Value

/-! ### Checks, texts and blobs -/

lemma allOrNone_limitLength (field : String) (n max : Nat) :
    AllOrNone 0 (limitLength field n max) := by
  intro s
  unfold limitLength
  split
  · exact .inr ⟨_, rfl⟩
  · exact .inl ⟨(), Nat.zero_le _, rfl⟩

lemma allOrNone_limitCount (field : String) (n size : Nat) :
    AllOrNone 0 (limitCount field n size) := by
  intro s
  unfold limitCount
  split
  · exact .inl ⟨(), Nat.zero_le _, rfl⟩
  · exact .inr ⟨_, rfl⟩

lemma allOrNone_textOf (field : String) (body : Bytes) : AllOrNone 0 (textOf field body) := by
  intro s
  unfold textOf
  cases ofUtf8? body with
  | some x => exact .inl ⟨x, Nat.zero_le _, rfl⟩
  | none => exact .inr ⟨_, rfl⟩

lemma forward_readParticle (size : Nat) : Forward (readParticle size) := by
  refine (allOrNone_limitLength _ _ _).forward.bind fun _ => ?_
  split
  · exact Forward.pure _
  refine (allOrNone_byte _).forward.bind fun type => ?_
  refine (allOrNone_bytes _ _).forward.bind fun body => ?_
  split
  · exact ((allOrNone_textOf _ _).map _).forward
  · exact ((allOrNone_textOf _ _).map _).forward
  · exact Forward.pure _
  · exact Forward.throw _

lemma forward_readBlob (size : Nat) : Forward (readBlob size) :=
  (allOrNone_limitLength _ _ _).forward.bind fun _ => ((allOrNone_bytes _ _).map _).forward

lemma forward_startsWithOrder : Forward startsWithOrder := ((allOrNone_peek _).map _).forward

end Value

/-! ### Calls of readers -/

/-- A reader with the places, each told by what is left there, at which it begins an object. -/
structure Traced (α : Type) where
  reader : Reader α
  begun : Bytes → List Bytes

namespace Traced

variable {α β : Type}

instance : Monad Traced where
  pure a := ⟨pure a, fun _ => []⟩
  bind m f := {
    reader := m.reader >>= fun a => (f a).reader
    begun := fun s => m.begun s ++ match m.reader s with
      | .ok a t => (f a).begun t
      | .error _ _ => [] }

/-- A reader that begins no object. -/
instance : MonadLift Reader Traced := ⟨fun r => ⟨r, fun _ => []⟩⟩

/-- The reader of an object, which begins where the reader is called. -/
def noted (m : Traced α) : Traced α := ⟨m.reader, fun s => s :: m.begun s⟩

def skipTimes (one : Traced Unit) : Nat → Traced Unit
  | 0 => return ()
  | n + 1 => do
    one
    skipTimes one n

def skipWithin (max : Nat) (reading : String) : Nat → Traced Unit
  | 0 => noted (liftM (throw (.tooDeep max) : Reader Unit))
  | room + 1 => noted do
    let b ← byte reading
    let (size, count) ← extent b reading
    let _ ← bytes size reading
    skipTimes (skipWithin max reading room) count

lemma reader_skipTimes (one : Traced Unit) (n : Nat) :
    (skipTimes one n).reader = Reader.skipTimes one.reader n := by
  induction n with
  | zero => rfl
  | succ n ih => exact bind_congr fun _ => ih

lemma reader_skipWithin (max : Nat) (l : String) (room : Nat) :
    (skipWithin max l room).reader = Reader.skipWithin max l room := by
  induction room with
  | zero => rfl
  | succ room ih =>
    rw [Reader.skipWithin, ← ih]
    exact bind_congr fun b => bind_congr fun x => bind_congr fun _ => reader_skipTimes _ _

def object (max : Nat) (reading : String) : Traced Bytes :=
  ⟨taken (skipWithin max reading (max + 1)).reader, (skipWithin max reading (max + 1)).begun⟩

lemma reader_object (max : Nat) (l : String) : (object max l).reader = Reader.object max l := by
  rw [object, reader_skipWithin]
  rfl

def times (one : Traced α) : Nat → List α → Traced (List α)
  | 0, done => return done.reverse
  | n + 1, done => do
    let a ← one
    times one n (a :: done)

lemma reader_times (one : Traced α) (n : Nat) (done : List α) :
    (times one n done).reader = Reader.times one.reader n done := by
  induction n generalizing done with
  | zero => rfl
  | succ n ih => exact bind_congr fun a => ih (a :: done)

open Value

def list (element : Traced Value) (count : Nat) : Traced Value := do
  limitLength "list" count Limits.items
  limitCount "list" count 1
  return .list (← times element count [])

def entries (element : Traced Value) : Nat → List (Value × Value) → Traced Value
  | 0, es => return .map es.reverse
  | n + 1, es => do
    let k ← element
    if (Assoc.find? descending k es).isSome then
      liftM (throw .duplicateKey : Reader Value)
    else
      let v ← element
      entries element n (Assoc.insert descending k v es)

def map (element : Traced Value) (max count : Nat) : Traced Value := do
  limitLength "map" count Limits.items
  limitCount "map" count 2
  if count = 0 then return .map []
  else if ← startsWithOrder then
    skipWithin 0 "map order" 1
    skipWithin max "map order" (max + 1)
    entries element (count - 1) []
  else entries element count []

def valueWithin (max : Nat) : Nat → Traced Value
  | 0 => noted (liftM (throw (.tooDeep max) : Reader Value))
  | room + 1 => noted do
    let b ← byte "value"
    match Marker.ofByte b with
    | .fixint n => return .int n
    | .uint width => return .int (Int64.ofNat (← uint width "value"))
    | .int width => return .int (← Reader.int width "value")
    | .nil => return .nil
    | .bool b => return .bool b
    | .float32 => return .float (Double.ofSingle (UInt32.ofNat (← uint 4 "float32")))
    | .float64 => return .float ⟨UInt64.ofNat (← uint 8 "float64")⟩
    | .fixstr size => readParticle size
    | .str width => readParticle (← uint width "string length")
    | .bin width => readBlob (← uint width "bytes length")
    | .fixarray count => list (valueWithin max room) count
    | .array width => list (valueWithin max room) (← uint width "list length")
    | .fixmap count => map (valueWithin max room) max count
    | .map width => map (valueWithin max room) max (← uint width "map length")
    | .ext _ | .fixext _ | .reserved => liftM (throw (.marker b "value") : Reader Value)

variable {element : Traced Value} {max room : Nat}

lemma reader_list (element : Traced Value) (n : Nat) :
    (list element n).reader = readList element.reader n := by
  refine bind_congr fun _ => bind_congr fun _ => ?_
  rw [← reader_times]
  rfl

lemma reader_entries (element : Traced Value) (n : Nat) (es : List (Value × Value)) :
    (entries element n es).reader = readEntries element.reader n es := by
  induction n generalizing es with
  | zero => rfl
  | succ n ih =>
    refine bind_congr fun k => ?_
    beta_reduce
    split
    · rfl
    · exact bind_congr fun v => ih _

lemma reader_map (element : Traced Value) (max n : Nat) :
    (map element max n).reader = readMap element.reader max n := by
  refine bind_congr fun _ => bind_congr fun _ => ?_
  beta_reduce
  split
  · rfl
  refine bind_congr fun ordered => ?_
  beta_reduce
  split
  · rw [← reader_entries, skip, skip, ← reader_skipWithin, ← reader_skipWithin]
    rfl
  · exact reader_entries element n []

lemma reader_valueWithin (max room : Nat) :
    (valueWithin max room).reader = readWithin max room := by
  induction room with
  | zero => rfl
  | succ room ih =>
    rw [readWithin, ← ih]
    refine bind_congr fun b => ?_
    beta_reduce
    cases Marker.ofByte b with
    | fixarray n => exact reader_list _ n
    | array width => exact bind_congr fun n => reader_list _ n
    | fixmap n => exact reader_map _ max n
    | map width => exact bind_congr fun n => reader_map _ max n
    | _ => rfl

/-! ### The order of calls -/

/--
The reader goes forward, and so do the calls: each is made where bytes that the last one was given
have been taken, and of the bytes that a success leaves none was in front of a call.
-/
structure Orderly (m : Traced α) : Prop where
  forward : Forward m.reader
  begun_suffix : ∀ s, ∀ x ∈ m.begun s, x <:+ s ∧ left m.reader s <:+ x
  descends : ∀ s, (m.begun s).Pairwise fun x y => y.length < x.length
  length_lt : ∀ s a t, m.reader s = .ok a t → ∀ x ∈ m.begun s, t.length < x.length

lemma orderly_liftM {r : Reader α} (h : Forward r) : Orderly (liftM r : Traced α) where
  forward := h
  begun_suffix _ _ hx := absurd hx List.not_mem_nil
  descends _ := .nil
  length_lt _ _ _ _ _ hx := absurd hx List.not_mem_nil

lemma Orderly.pure (a : α) : Orderly (pure a : Traced α) := orderly_liftM (Forward.pure a)

lemma begun_bind_of_ok {m : Traced α} {f : α → Traced β} {a : α} {s t : Bytes}
    (h : m.reader s = .ok a t) : (m >>= f).begun s = m.begun s ++ (f a).begun t := by
  change m.begun s ++ (match m.reader s with | .ok a t => (f a).begun t | .error _ _ => []) = _
  rw [h]

lemma begun_bind_of_error {m : Traced α} {f : α → Traced β} {e : DecodeError} {s t : Bytes}
    (h : m.reader s = .error e t) : (m >>= f).begun s = m.begun s := by
  change m.begun s ++ (match m.reader s with | .ok a t => (f a).begun t | .error _ _ => []) = _
  rw [h, List.append_nil]

lemma Orderly.bind {m : Traced α} {f : α → Traced β} (hm : Orderly m) (hf : ∀ a, Orderly (f a)) :
    Orderly (m >>= f) where
  forward := hm.forward.bind fun a => (hf a).forward
  begun_suffix s x hx := by
    cases h : m.reader s with
    | ok a t =>
      have ht := hm.forward s
      have hleft : left (m >>= f).reader s = left (f a).reader t := left_bind_of_ok h
      rw [left_of_ok h] at ht
      rw [hleft]
      rw [begun_bind_of_ok h, List.mem_append] at hx
      rcases hx with hx | hx
      · obtain ⟨hxs, htx⟩ := hm.begun_suffix s x hx
        rw [left_of_ok h] at htx
        exact ⟨hxs, ((hf a).forward t).trans htx⟩
      · obtain ⟨hxt, hlx⟩ := (hf a).begun_suffix t x hx
        exact ⟨hxt.trans ht, hlx⟩
    | error e t =>
      have hleft : left (m >>= f).reader s = left m.reader s :=
        (left_bind_of_error h).trans (left_of_error h).symm
      rw [hleft]
      rw [begun_bind_of_error h] at hx
      exact hm.begun_suffix s x hx
  descends s := by
    cases h : m.reader s with
    | ok a t =>
      -- Calls of the first reader stand in front of what it leaves, those of the second within it.
      rw [begun_bind_of_ok h]
      refine List.pairwise_append.2 ⟨hm.descends s, (hf a).descends t, fun x hx y hy => ?_⟩
      have hxt := hm.length_lt s a t h x hx
      have hyt := ((hf a).begun_suffix t y hy).1.length_le
      omega
    | error e t =>
      rw [begun_bind_of_error h]
      exact hm.descends s
  length_lt s b u h x hx := by
    obtain ⟨a, t, ha, hb⟩ := bind_eq_ok.1 h
    have hu := (hf a).forward t
    rw [left_of_ok hb] at hu
    rw [begun_bind_of_ok ha, List.mem_append] at hx
    rcases hx with hx | hx
    · have hxt := hm.length_lt s a t ha x hx
      have hut := hu.length_le
      omega
    · exact (hf a).length_lt t b u hb x hx

/-- What is read without calls makes no difference to them. -/
lemma Orderly.after {r : Reader α} {f : α → Traced β} (hr : Forward r) (hf : ∀ a, Orderly (f a)) :
    Orderly ((liftM r : Traced α) >>= f) :=
  (orderly_liftM hr).bind hf

/-- A call is in order if a byte is taken before other calls are made. -/
lemma Orderly.noted {m : Traced α} (hm : Orderly m) (ht : Takes 1 m.reader)
    (hlt : ∀ s, ∀ x ∈ m.begun s, x.length < s.length) : Orderly (noted m) where
  forward := hm.forward
  begun_suffix s x hx := by
    rcases List.mem_cons.1 hx with rfl | hx
    · exact ⟨List.suffix_refl x, hm.forward x⟩
    · exact hm.begun_suffix s x hx
  descends s := List.pairwise_cons.2 ⟨hlt s, hm.descends s⟩
  length_lt s a t h x hx := by
    rcases List.mem_cons.1 hx with rfl | hx
    · exact ht x a t h
    · exact hm.length_lt s a t h x hx

lemma orderly_noted_byte {f : UInt8 → Traced α} (l : String) (hf : ∀ b, Orderly (f b)) :
    Orderly (noted ((liftM (byte l) : Traced UInt8) >>= f)) := by
  refine (Orderly.after (allOrNone_byte l).forward hf).noted ?_ ?_
  · intro s a t h
    obtain ⟨b, u, hb, hu⟩ := bind_eq_ok.1 h
    have hut := (hf b).forward u
    rw [left_of_ok hu] at hut
    rw [byte_eq_ok.1 hb]
    exact Nat.succ_le_succ hut.length_le
  · intro s x hx
    rcases s with - | ⟨b, u⟩
    · exact absurd hx List.not_mem_nil
    · have hxu : x ∈ (f b).begun u := hx
      exact Nat.lt_succ_of_le ((hf b).begun_suffix u x hxu).1.length_le

lemma orderly_noted_throw (e : DecodeError) :
    Orderly (noted (liftM (throw e : Reader α) : Traced α)) :=
  (orderly_liftM (Forward.throw e)).noted (Takes.throw 1 e) fun _ _ hx =>
    absurd hx List.not_mem_nil

lemma Orderly.skipTimes {one : Traced Unit} (h : Orderly one) : ∀ n, Orderly (skipTimes one n)
  | 0 => Orderly.pure ()
  | n + 1 => h.bind fun _ => h.skipTimes n

lemma Orderly.times {one : Traced α} (h : Orderly one) : ∀ n done, Orderly (times one n done)
  | 0, done => Orderly.pure done.reverse
  | n + 1, done => h.bind fun a => h.times n (a :: done)

lemma orderly_skipWithin (max : Nat) (l : String) (room : Nat) :
    Orderly (skipWithin max l room) := by
  induction room with
  | zero => exact orderly_noted_throw _
  | succ room ih =>
    refine orderly_noted_byte l fun b => .after (forward_extent b l) fun x => ?_
    exact .after (allOrNone_bytes x.1 l).forward fun _ => ih.skipTimes x.2

lemma Orderly.taken {m : Traced Unit} (h : Orderly m) :
    Orderly (⟨Reader.taken m.reader, m.begun⟩ : Traced Bytes) where
  forward s := by
    rw [left_taken]
    exact h.forward s
  begun_suffix s x hx := by
    rw [left_taken]
    exact h.begun_suffix s x hx
  descends := h.descends
  length_lt s a t hs := by
    cases hu : m.reader s with
    | ok x u =>
      simp only [Reader.taken, hu] at hs
      cases hs
      exact h.length_lt s x t hu
    | error e u =>
      simp only [Reader.taken, hu] at hs
      cases hs

lemma orderly_object (max : Nat) (l : String) : Orderly (object max l) :=
  (orderly_skipWithin max l (max + 1)).taken

lemma Orderly.list (h : Orderly element) (n : Nat) : Orderly (list element n) :=
  .after (allOrNone_limitLength _ _ _).forward fun _ =>
    .after (allOrNone_limitCount _ _ _).forward fun _ => (h.times n []).bind fun _ => Orderly.pure _

lemma Orderly.entries (h : Orderly element) (n : Nat) (es : List (Value × Value)) :
    Orderly (entries element n es) := by
  induction n generalizing es with
  | zero => exact Orderly.pure _
  | succ n ih =>
    refine h.bind fun k => ?_
    split
    · exact orderly_liftM (Forward.throw _)
    · exact h.bind fun v => ih _

lemma Orderly.map (h : Orderly element) (max n : Nat) : Orderly (map element max n) := by
  refine .after (allOrNone_limitLength _ _ _).forward fun _ => ?_
  refine .after (allOrNone_limitCount _ _ _).forward fun _ => ?_
  split
  · exact Orderly.pure _
  refine .after forward_startsWithOrder fun ordered => ?_
  split
  · refine (orderly_skipWithin _ _ _).bind fun _ => (orderly_skipWithin _ _ _).bind fun _ => ?_
    exact h.entries _ _
  · exact h.entries _ _

lemma orderly_valueWithin (max room : Nat) : Orderly (valueWithin max room) := by
  induction room with
  | zero => exact orderly_noted_throw _
  | succ room ih =>
    have huint {α : Type} {l : String} {width : Nat} {f : Nat → Traced α}
        (hf : ∀ n, Orderly (f n)) : Orderly ((liftM (uint width l) : Traced Nat) >>= f) :=
      .after (allOrNone_uint _ _).forward hf
    refine orderly_noted_byte _ fun b => ?_
    cases Marker.ofByte b with
    | fixint n => exact Orderly.pure _
    | uint width => exact huint fun n => Orderly.pure _
    | int width => exact .after (forward_int _ _) fun n => Orderly.pure _
    | nil => exact Orderly.pure _
    | bool b => exact Orderly.pure _
    | float32 => exact huint fun n => Orderly.pure _
    | float64 => exact huint fun n => Orderly.pure _
    | fixstr size => exact orderly_liftM (forward_readParticle size)
    | str width => exact huint fun n => orderly_liftM (forward_readParticle n)
    | bin width => exact huint fun n => orderly_liftM (forward_readBlob n)
    | fixarray n => exact ih.list n
    | array width => exact huint ih.list
    | fixmap n => exact ih.map max n
    | map width => exact huint (ih.map max)
    | _ => exact orderly_liftM (Forward.throw _)

end Traced

end NestedPath
