import NestedPath.Proofs.Forms
import NestedPath.Proofs.Value.Framed
import NestedPath.Proofs.Value.Shape

/-!
What bytes begin with when a value is read from them: the header of a list, the header of a map, or
neither of these, and then no other value is read on the way.
-/

namespace NestedPath

open Reader

namespace Reader

variable {α β : Type} {r : Reader α} {f : α → Reader β}

/-- Whatever the reader fails for, it is not a key that comes twice. -/
def Blind (r : Reader α) : Prop := ∀ s left, r s ≠ .error .duplicateKey left

lemma Blind.pure (a : α) : Blind (pure a : Reader α) := fun _ _ => nofun

lemma Blind.throw {e : DecodeError} (h : e ≠ .duplicateKey) : Blind (throw e : Reader α) := by
  intro s left he
  cases he
  exact h rfl

lemma Blind.bind (hr : Blind r) (hf : ∀ a, Blind (f a)) : Blind (r >>= f) := by
  intro s left h
  rcases bind_eq_error.1 h with h | ⟨a, t, -, h⟩
  · exact hr s left h
  · exact hf a t left h

lemma blind_byte (l : String) : Blind (byte l) := by
  intro s left h
  cases s <;> cases h

lemma blind_bytes (n : Nat) (l : String) : Blind (bytes n l) := by
  intro s left h
  unfold bytes at h
  split at h <;> cases h

lemma blind_uint (w : Nat) (l : String) : Blind (uint w l) :=
  (blind_bytes w l).bind fun _ => Blind.pure _

end Reader

namespace Value

variable {v : Value} {b : UInt8} {max room n size width : Nat} {l : String} {hd rest s t u : Bytes}

/-! ### Texts, blobs and documents -/

lemma blind_limitLength (field : String) (n max : Nat) : Blind (limitLength field n max) := by
  unfold limitLength
  split
  · exact Blind.throw nofun
  · exact Blind.pure ()

lemma blind_textOf (field : String) (body : Bytes) : Blind (textOf field body) := by
  unfold textOf
  split
  · exact Blind.pure _
  · exact Blind.throw nofun

lemma blind_readParticle (size : Nat) : Blind (readParticle size) := by
  refine (blind_limitLength _ _ _).bind fun _ => ?_
  split
  · exact Blind.pure _
  refine (blind_byte _).bind fun type => (blind_bytes _ _).bind fun body => ?_
  split
  · exact (blind_textOf _ _).bind fun _ => Blind.pure _
  · exact (blind_textOf _ _).bind fun _ => Blind.pure _
  · exact Blind.pure _
  · exact Blind.throw nofun

lemma blind_readBlob (size : Nat) : Blind (readBlob size) :=
  (blind_limitLength _ _ _).bind fun _ => (blind_bytes _ _).bind fun _ => Blind.pure _

lemma limitLength_eq_ok {field : String} {x : Unit} :
    limitLength field n max s = .ok x t ↔ n ≤ max ∧ s = t := by
  unfold limitLength
  split
  · exact ⟨fun h => absurd h throw_ne_ok, fun h => by omega⟩
  · rw [pure_eq_ok]
    exact ⟨fun h => ⟨by omega, h.2⟩, fun h => ⟨rfl, h.2⟩⟩

lemma textOf_eq_ok {field x : String} {body : Bytes} (h : textOf field body s = .ok x t) :
    s = t := by
  rw [textOf] at h
  cases hx : ofUtf8? body with
  | some x =>
    rw [hx] at h
    exact (pure_eq_ok.1 h).2
  | none =>
    rw [hx] at h
    exact absurd h throw_ne_ok

/-- A body is a text, a document or a blob, and is read to its end. -/
lemma readParticle_eq_ok (h : readParticle size s = .ok v t) :
    v.Scalar ∧ ∃ body, body.length = size ∧ s = body ++ t := by
  obtain ⟨x, u, hlimit, hu⟩ := bind_eq_ok.1 h
  obtain ⟨-, rfl⟩ := limitLength_eq_ok.1 hlimit
  split at hu
  · obtain ⟨rfl, rfl⟩ := pure_eq_ok.1 hu
    exact ⟨trivial, [], by simp [*], rfl⟩
  obtain ⟨type, u, htype, hu⟩ := bind_eq_ok.1 hu
  rw [byte_eq_ok] at htype
  obtain ⟨body, w, hbody, hw⟩ := bind_eq_ok.1 hu
  obtain ⟨rfl, hlen⟩ := bytes_eq_ok.1 hbody
  suffices hv : v.Scalar ∧ w = t by
    obtain ⟨hv, rfl⟩ := hv
    exact ⟨hv, type :: body, by rw [List.length_cons]; omega, htype⟩
  rcases hp : ParticleType.ofByte? type with - | p
  · rw [hp] at hw
    exact absurd hw throw_ne_ok
  rw [hp] at hw
  cases p with
  | string =>
    obtain ⟨x, y, hx, hy⟩ := bind_eq_ok.1 hw
    obtain ⟨rfl, rfl⟩ := pure_eq_ok.1 hy
    exact ⟨trivial, textOf_eq_ok hx⟩
  | geo =>
    obtain ⟨x, y, hx, hy⟩ := bind_eq_ok.1 hw
    obtain ⟨rfl, rfl⟩ := pure_eq_ok.1 hy
    exact ⟨trivial, textOf_eq_ok hx⟩
  | blob =>
    obtain ⟨rfl, rfl⟩ := pure_eq_ok.1 hw
    exact ⟨trivial, rfl⟩
  | _ => exact absurd hw throw_ne_ok

lemma readBlob_eq_ok (h : readBlob size s = .ok v t) :
    v.Scalar ∧ ∃ body, body.length = size ∧ s = body ++ t := by
  obtain ⟨x, u, hlimit, hu⟩ := bind_eq_ok.1 h
  obtain ⟨-, rfl⟩ := limitLength_eq_ok.1 hlimit
  obtain ⟨body, w, hbody, hw⟩ := bind_eq_ok.1 hu
  obtain ⟨rfl, hlen⟩ := bytes_eq_ok.1 hbody
  obtain ⟨rfl, rfl⟩ := pure_eq_ok.1 hw
  exact ⟨trivial, body, hlen, rfl⟩

/-! ### Behind a header -/

lemma readWithin_list (h : Header .list n hd) (max room : Nat) (rest : Bytes) :
    readWithin max (room + 1) (hd ++ rest) = readList (readWithin max room) n rest := by
  cases lead_list_iff.2 h with
  | @short b hb =>
    rw [readWithin, List.singleton_append, bind_of_ok (byte_eq_ok.2 rfl), hb]
  | @long b width ds hb hl hn =>
    rw [readWithin, List.cons_append, bind_of_ok (byte_eq_ok.2 rfl), hb]
    exact bind_of_ok (reads_uint "list length" hl hn rest)

lemma readWithin_map (h : Header .map n hd) (max room : Nat) (rest : Bytes) :
    readWithin max (room + 1) (hd ++ rest) = readMap (readWithin max room) max n rest := by
  cases lead_map_iff.2 h with
  | @short b hb =>
    rw [readWithin, List.singleton_append, bind_of_ok (byte_eq_ok.2 rfl), hb]
  | @long b width ds hb hl hn =>
    rw [readWithin, List.cons_append, bind_of_ok (byte_eq_ok.2 rfl), hb]
    exact bind_of_ok (reads_uint "map length" hl hn rest)

/-! ### All fronts -/

/-- The header of a list, the header of a map, or neither of these. -/
inductive Front : Bytes → Prop
  | list {n : Nat} {hd rest : Bytes} (h : Header .list n hd) : Front (hd ++ rest)
  | map {n : Nat} {hd rest : Bytes} (h : Header .map n hd) : Front (hd ++ rest)
  /-- Neither the limit nor the room for more makes a difference. -/
  | flat {s : Bytes} {result : EStateM.Result DecodeError Bytes Value}
      (heq : ∀ max room, readWithin max (room + 1) s = result)
      (hok : ∀ v t, result = .ok v t → v.Scalar ∧ ∃ bs, LeafForm bs ∧ s = bs ++ t)
      (herr : ∀ left, result ≠ .error .duplicateKey left) : Front s

namespace Front

/-- Behind the first byte comes a reader that reads no other values. -/
lemma of_tail {r : Reader Value} (heq : ∀ max room, readWithin max (room + 1) (b :: u) = r u)
    (hok : ∀ v t, r u = .ok v t → v.Scalar ∧ ∃ ds, LeafForm (b :: ds) ∧ u = ds ++ t)
    (hr : Blind r) : Front (b :: u) := by
  refine .flat heq (fun v t h => ?_) (hr u)
  obtain ⟨hv, ds, hform, rfl⟩ := hok v t h
  exact ⟨hv, b :: ds, hform, rfl⟩

/-- The numeral behind the first byte is all of the value. -/
lemma of_numeral {g : Nat → Value} (heq : ∀ max room,
      readWithin max (room + 1) (b :: u) = (uint width l >>= fun n => pure (g n)) u)
    (hg : ∀ n, (g n).Scalar) (hform : ∀ ds : Bytes, ds.length = width → LeafForm (b :: ds)) :
    Front (b :: u) := by
  refine of_tail heq (fun v t h => ?_) ((blind_uint _ _).bind fun _ => Blind.pure _)
  obtain ⟨n, w, hn, hw⟩ := bind_eq_ok.1 h
  obtain ⟨ds, rfl, hl, -⟩ := uint_eq_ok.1 hn
  obtain ⟨rfl, rfl⟩ := pure_eq_ok.1 hw
  exact ⟨hg n, ds, hform ds hl, rfl⟩

/-- The numeral behind the first byte is the size of the body of the value. -/
lemma of_body {r : Nat → Reader Value} (hb : (b, width) ∈ bodyForms)
    (hr : ∀ n u v t, r n u = .ok v t → v.Scalar ∧ ∃ body : Bytes, body.length = n ∧ u = body ++ t)
    (hblind : ∀ n, Blind (r n))
    (heq : ∀ max room, readWithin max (room + 1) (b :: u) = (uint width l >>= r) u) :
    Front (b :: u) := by
  refine of_tail heq (fun v t h => ?_) ((blind_uint _ _).bind hblind)
  obtain ⟨n, w, hn, hw⟩ := bind_eq_ok.1 h
  obtain ⟨ds, rfl, hl, rfl⟩ := uint_eq_ok.1 hn
  obtain ⟨hv, body, hbody, rfl⟩ := hr _ _ _ _ hw
  exact ⟨hv, ds ++ body, .body hb hl hbody, (List.append_assoc ..).symm⟩

/-- Where the numeral behind the first byte is cut short, nothing else is read. -/
lemma of_cut {e : DecodeError} {r : Nat → Nat → Nat → Reader Value}
    (hcut : uint width l u = .error e t)
    (heq : ∀ max room, readWithin max (room + 1) (b :: u) = (uint width l >>= r max room) u) :
    Front (b :: u) := by
  refine .flat (fun max room => (heq max room).trans (bind_of_error hcut)) nofun fun left h => ?_
  cases h
  exact blind_uint _ _ _ _ hcut

end Front

/-- Whatever the bytes, they begin in one of three ways. -/
lemma front (s : Bytes) : Front s := by
  rcases s with - | ⟨b, u⟩
  · exact .flat (fun _ _ => rfl) nofun nofun
  have hread (max room : Nat) : readWithin max (room + 1) (b :: u) = _ :=
    bind_of_ok (byte_eq_ok.2 rfl)
  have hm := Marker.isOf_ofByte b
  -- The first byte tells which of the three it is, but a count behind it may be cut short.
  cases hb : Marker.ofByte b <;> simp only [hb] at hread hm
  case fixint n =>
    refine .of_tail (r := pure (.int n)) hread (fun v t h => ?_) (Blind.pure _)
    obtain ⟨rfl, rfl⟩ := pure_eq_ok.1 h
    exact ⟨trivial, [], .number (numberLead_iff.1 (.short hb)), rfl⟩
  case nil =>
    refine .of_tail (r := pure .nil) hread (fun v t h => ?_) (Blind.pure _)
    obtain ⟨rfl, rfl⟩ := pure_eq_ok.1 h
    exact ⟨trivial, [], hm ▸ .nil, rfl⟩
  case bool x =>
    refine .of_tail (r := pure (.bool x)) hread (fun v t h => ?_) (Blind.pure _)
    obtain ⟨rfl, rfl⟩ := pure_eq_ok.1 h
    exact ⟨trivial, [], hm ▸ .bool x, rfl⟩
  case uint width =>
    exact .of_numeral hread (fun _ => trivial) fun ds hl => .number (.unsigned hm hl)
  case int width =>
    simp only [Reader.int, bind_assoc, pure_bind] at hread
    exact .of_numeral hread (fun _ => trivial) fun ds hl => .number (.signed hm hl)
  case float32 =>
    exact .of_numeral hread (fun _ => trivial) fun ds hl => .float (by rw [hm]; decide) hl
  case float64 =>
    exact .of_numeral hread (fun _ => trivial) fun ds hl => .float (by rw [hm]; decide) hl
  case fixstr size =>
    obtain ⟨hlt, rfl⟩ := hm
    refine .of_tail hread (fun v t h => ?_) (blind_readParticle size)
    obtain ⟨hv, body, rfl, hu⟩ := readParticle_eq_ok h
    exact ⟨hv, body, .text hlt, hu⟩
  case str width =>
    exact .of_body hm (fun _ _ _ _ => readParticle_eq_ok) blind_readParticle hread
  case bin width =>
    exact .of_body hm (fun _ _ _ _ => readBlob_eq_ok) blind_readBlob hread
  case fixarray n => exact @Front.list n [b] u (lead_list_iff.1 (.short hb))
  case fixmap n => exact @Front.map n [b] u (lead_map_iff.1 (.short hb))
  case array width =>
    cases hn : uint width "list length" u with
    | ok n t =>
      obtain ⟨ds, rfl, hl, hds⟩ := uint_eq_ok.1 hn
      exact @Front.list n (b :: ds) t (lead_list_iff.1 (.long hb hl hds))
    | error e t => exact .of_cut hn hread
  case map width =>
    cases hn : uint width "map length" u with
    | ok n t =>
      obtain ⟨ds, rfl, hl, hds⟩ := uint_eq_ok.1 hn
      exact @Front.map n (b :: ds) t (lead_map_iff.1 (.long hb hl hds))
    | error e t => exact .of_cut hn hread
  all_goals exact .flat hread nofun nofun

end Value

end NestedPath
