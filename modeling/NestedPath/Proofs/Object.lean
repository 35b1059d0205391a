import NestedPath.Path.Encode
import NestedPath.Proofs.Reading

/-!
Whole packed objects: where one ends depends neither on what stands behind it nor on how deep it
was allowed to be. A program passes the check before writing just if it is one object.
-/

namespace NestedPath

namespace Reader

/-! ### Success is local -/

/-- The first byte says all, or says that a numeral is to follow, or starts nothing. -/
lemma extent_cases (b : UInt8) : (∃ x, ∀ l, extent b l = pure x) ∨
    (∃ w, ∃ g : Nat → Nat × Nat, ∀ l, extent b l = uint w l >>= fun n => pure (g n)) ∨
    ∀ l, extent b l = throw (.marker b l) := by
  unfold extent
  cases Marker.ofByte b with
  | reserved => exact .inr (.inr fun _ => rfl)
  | str width => exact .inr (.inl ⟨width, _, fun _ => rfl⟩)
  | bin width => exact .inr (.inl ⟨width, _, fun _ => rfl⟩)
  | ext width => exact .inr (.inl ⟨width, _, fun _ => rfl⟩)
  | array width => exact .inr (.inl ⟨width, _, fun _ => rfl⟩)
  | map width => exact .inr (.inl ⟨width, _, fun _ => rfl⟩)
  | _ => exact .inl ⟨_, fun _ => rfl⟩

lemma framed_extent (b : UInt8) (l : String) : Framed (extent b l) := by
  rcases extent_cases b with ⟨x, h⟩ | ⟨w, g, h⟩ | h
  · rw [h]
    exact Framed.pure x
  · rw [h]
    exact (framed_uint w l).bind fun n => Framed.pure (g n)
  · rw [h]
    exact Framed.throw _

lemma framed_skipWithin (max : Nat) (l : String) (room : Nat) : Framed (skipWithin max l room) := by
  induction room with
  | zero => exact Framed.throw _
  | succ room ih =>
    refine (framed_byte l).bind fun b => (framed_extent b l).bind fun x => ?_
    exact (framed_bytes x.1 l).bind fun _ => framed_skipTimes ih x.2

lemma framed_skip (max : Nat) (l : String) : Framed (skip max l) := framed_skipWithin max l _

lemma Reads.taken {r : Reader Unit} {bs : Bytes} (h : Reads r bs ()) : Reads (taken r) bs bs := by
  intro rest
  rw [Reader.taken, h rest]
  simp

/-- An object is taken byte for byte. -/
lemma object_eq_ok {max : Nat} {l : String} {s bs t : Bytes} :
    object max l s = .ok bs t ↔ s = bs ++ t ∧ Reads (skip max l) bs () := by
  constructor
  · intro h
    cases hs : skip max l s with
    | error e u => simp [object, taken, hs] at h
    | ok a u =>
      obtain ⟨cs, rfl, hcs⟩ := framed_skip max l s a u hs
      rw [object, hcs.taken u] at h
      cases h
      exact ⟨rfl, hcs⟩
  · rintro ⟨rfl, h⟩
    exact h.taken t

lemma framed_object (max : Nat) (l : String) : Framed (object max l) := by
  intro s bs t h
  obtain ⟨rfl, hbs⟩ := object_eq_ok.1 h
  exact ⟨bs, rfl, hbs.taken⟩

lemma reads_of_skip {max : Nat} {l : String} {bs : Bytes} (h : skip max l bs = .ok () []) :
    Reads (skip max l) bs () :=
  (framed_skip max l).reads h

/-! ### Depths and names do not matter to where an object ends -/

/-- Where one reader succeeds the other does, with the same outcome. -/
def Le {α : Type} (r r' : Reader α) : Prop := ∀ s a t, r s = .ok a t → r' s = .ok a t

section

variable {α β : Type} {r r' : Reader α} {f f' : α → Reader β} {l l' : String}

lemma Le.refl (r : Reader α) : Le r r := fun _ _ _ h => h

lemma Le.throw (e : DecodeError) : Le (throw e) r := fun _ _ _ h => absurd h throw_ne_ok

lemma Le.bind (hr : Le r r') (hf : ∀ a, Le (f a) (f' a)) : Le (r >>= f) (r' >>= f') := by
  intro s b t h
  obtain ⟨a, u, h1, h2⟩ := bind_eq_ok.1 h
  exact bind_eq_ok.2 ⟨a, u, hr _ _ _ h1, hf a _ _ _ h2⟩

lemma Le.reads {bs : Bytes} {a : α} (h : Le r r') (hr : Reads r bs a) : Reads r' bs a :=
  fun rest => h _ _ _ (hr rest)

lemma le_byte : Le (byte l) (byte l') := fun _ _ _ h => byte_eq_ok.2 (byte_eq_ok.1 h)

lemma le_bytes (n : Nat) : Le (bytes n l) (bytes n l') :=
  fun _ _ _ h => bytes_eq_ok.2 (bytes_eq_ok.1 h)

lemma le_uint (w : Nat) : Le (uint w l) (uint w l') := (le_bytes w).bind fun _ => Le.refl _

lemma Le.skipTimes {one one' : Reader Unit} (h : Le one one') (n : Nat) :
    Le (skipTimes one n) (skipTimes one' n) := by
  induction n with
  | zero => exact Le.refl _
  | succ n ih => exact h.bind fun _ => ih

lemma le_extent (b : UInt8) : Le (extent b l) (extent b l') := by
  rcases extent_cases b with ⟨x, h⟩ | ⟨w, g, h⟩ | h
  · rw [h, h]
    exact Le.refl _
  · rw [h, h]
    exact (le_uint w).bind fun _ => Le.refl _
  · rw [h]
    exact Le.throw _

/-- More room changes nothing about an object that there is room for. -/
lemma le_skipWithin {room room' : Nat} (h : room ≤ room') (max max' : Nat) :
    Le (skipWithin max l room) (skipWithin max' l' room') := by
  induction room generalizing room' with
  | zero => exact Le.throw _
  | succ room ih =>
    obtain ⟨room', rfl⟩ : ∃ n, room' = n + 1 := ⟨room' - 1, by omega⟩
    refine le_byte.bind fun b => (le_extent b).bind fun x => (le_bytes x.1).bind fun _ => ?_
    exact (ih (Nat.le_of_succ_le_succ h)).skipTimes x.2

lemma le_skip {max max' : Nat} (h : max ≤ max') : Le (skip max l) (skip max' l') :=
  le_skipWithin (Nat.succ_le_succ h) max max'

/-- The bytes are one packed object, of whatever depth, and nothing more. -/
def IsObject (bs : Bytes) : Prop := ∃ max l, skip max l bs = .ok () []

/-- No object is the beginning of another. -/
lemma IsObject.append_inj {bs cs s t : Bytes} (hb : IsObject bs) (hc : IsObject cs)
    (e : bs ++ s = cs ++ t) : bs = cs ∧ s = t := by
  obtain ⟨m, l, hb⟩ := hb
  obtain ⟨n, l', hc⟩ := hc
  have hm : Le (skip m l) (skip (max m n) l) := le_skip (Nat.le_max_left m n)
  have hn : Le (skip n l') (skip (max m n) l) := le_skip (Nat.le_max_right m n)
  have hb := hm.reads (reads_of_skip hb)
  have hc := hn.reads (reads_of_skip hc)
  exact hb.taken.append_inj hc.taken e

end

end Reader

open Reader

/-- A program passes just if its bytes are one object within the limit of depth. -/
theorem Program.bound_eq_ok {p : Program} :
    p.bound = .ok () ↔ Reads (skip Limits.depth "context filter") p.bytes () := by
  unfold bound
  constructor
  · intro h
    split at h
    · exact reads_of_skip ‹_›
    · cases h
    · cases h
  · intro h
    have hs := h []
    rw [List.append_nil] at hs
    rw [hs]

end NestedPath
