import NestedPath.Proofs.Headers
import NestedPath.Proofs.Object
import NestedPath.Proofs.Text
import NestedPath.Proofs.Value.Shape

/-!
Items can be told from their bytes, whatever stands behind them.

A text and a body behind a type byte look alike, so texts are told apart from each other only, and
so are objects that were packed before.
-/

namespace NestedPath

open Reader

namespace Item

/-- The size or count that the item is written with has a numeral of four bytes. -/
def Sized : Item → Prop
  | array n | map n => n < 1 <<< 32
  | text s => s.utf8ByteSize < 1 <<< 32
  | particle _ body => body.length + 1 < 1 <<< 32
  | _ => True

/-- The item is neither a text nor an object that was packed before. -/
def Marked : Item → Prop
  | text _ | packed _ => False
  | _ => True

/-! ### A reader of items -/

def readAfter (b : UInt8) : Reader Item :=
  match Marker.ofByte b with
  | .fixint n => return number n
  | .uint width => return number (Int64.ofNat (← uint width ""))
  | .int width => return number (← Reader.int width "")
  | .nil => return nil
  | .bool b => return bool b
  | .float64 => return double ⟨UInt64.ofNat (← uint 8 "")⟩
  | .fixstr size => readParticle size
  | .str width => do readParticle (← uint width "")
  | .fixarray count => return array count
  | .array width => return array (← uint width "")
  | .fixmap count => return map count
  | .map width => return map (← uint width "")
  | .ext width => do
    let _ ← uint width ""
    return ext (← byte "")
  | _ => throw (.marker b "")
where
  /-- A body of so many bytes, the first of which is its type. -/
  readParticle (size : Nat) : Reader Item := do
    let type ← byte ""
    return particle type (← Reader.bytes (size - 1) "")

/-- An item other than a text or an object that was packed before. -/
def read : Reader Item := do
  readAfter (← byte "")

lemma reads_number (n : Int64) : Reads read (bytes (.number n)) (.number n) := by
  refine (lead_number n).reads (g := number) (m := "") (fun b hb => ?_) (fun b width hb => ?_)
    (fun b width hb => ?_)
  · rw [readAfter, hb]
  · rw [readAfter, hb]
  · rw [readAfter, hb]

lemma reads_particle (type : UInt8) {body : Bytes} (h : body.length + 1 < 1 <<< 32) :
    Reads read (bytes (.particle type body)) (.particle type body) := by
  have hbody : Reads (readAfter.readParticle (body.length + 1)) (type :: body)
      (.particle type body) :=
    (reads_byte _ type).bind ((reads_bytes _ rfl).bind_nil (Reads.pure _))
  refine (lead_sizeHeader h).reads (m := "") (fun b hb => ?_) (fun b width hb => ?_) hbody
  · rw [readAfter, hb]
  · rw [readAfter, hb]

lemma reads_header {short long : Nat → Marker} {n : Nat} {hd : Bytes} {i : Nat → Item}
    (h : Lead short long n hd) (hs : ∀ b, Marker.ofByte b = short n → readAfter b = pure (i n))
    (hl : ∀ b width, Marker.ofByte b = long width →
      readAfter b = uint width "" >>= fun n => pure (i n)) : Reads read hd (i n) := by
  have hr := h.reads (l := "") (f := readAfter) (g := fun n => pure (i n)) hs hl (Reads.pure (i n))
  rwa [List.append_nil] at hr

lemma reads_item {i : Item} (hs : i.Sized) (hm : i.Marked) : Reads read i.bytes i := by
  cases i with
  | array n =>
    refine reads_header (lead_array hs) (fun b hb => ?_) (fun b width hb => ?_)
    · rw [readAfter, hb]
    · rw [readAfter, hb]
  | map n =>
    refine reads_header (lead_map hs) (fun b hb => ?_) (fun b width hb => ?_)
    · rw [readAfter, hb]
    · rw [readAfter, hb]
  | number n => exact reads_number n
  | double d => exact reads_double (g := double) d rfl
  | bool b => cases b <;> exact fun _ => rfl
  | nil => exact fun _ => rfl
  | particle type body => exact reads_particle type hs
  | ext type => exact fun _ => rfl
  | text s => exact hm.elim
  | packed bs => exact hm.elim

def readText : Reader Bytes := do
  let b ← byte ""
  match Marker.ofByte b with
  | .fixstr size => Reader.bytes size ""
  | .str width => do Reader.bytes (← uint width "") ""
  | _ => throw (.marker b "")

lemma reads_text {s : String} (h : Sized (.text s)) :
    Reads readText (bytes (.text s)) (utf8 s) := by
  have hs := reads_bytes "" (length_utf8 s)
  refine (lead_sizeHeader h).reads (g := fun n => Reader.bytes n "") (m := "") (fun b hb => ?_)
    (fun b width hb => ?_) hs
  · rw [hb]
  · rw [hb]

/-! ### Runs of items -/

variable {i j : Item} {is js : List Item} {s t : Bytes}

/-- Two runs of items with the same bytes start with the same item. -/
lemma pack_cons_inj (e : pack (i :: is) ++ s = pack (j :: js) ++ t) (hi : i.Sized ∧ i.Marked)
    (hj : j.Sized ∧ j.Marked) : i = j ∧ pack is ++ s = pack js ++ t := by
  rw [pack_cons, pack_cons, List.append_assoc, List.append_assoc] at e
  exact (reads_item hi.1 hi.2).append_inj (reads_item hj.1 hj.2) e

lemma pack_text_inj {x y : String} (e : pack (.text x :: is) ++ s = pack (.text y :: js) ++ t)
    (hx : Sized (.text x)) (hy : Sized (.text y)) : x = y ∧ pack is ++ s = pack js ++ t := by
  rw [pack_cons, pack_cons, List.append_assoc, List.append_assoc] at e
  rw [← utf8_inj]
  exact (reads_text hx).append_inj (reads_text hy) e

lemma pack_packed_inj {bs cs : Bytes}
    (e : pack (.packed bs :: is) ++ s = pack (.packed cs :: js) ++ t)
    (hb : IsObject bs) (hc : IsObject cs) : bs = cs ∧ pack is ++ s = pack js ++ t := by
  rw [pack_cons, pack_cons, List.append_assoc, List.append_assoc] at e
  exact hb.append_inj hc e

lemma nat_inj {m n : Nat} (hm : m < 1 <<< 63) (hn : n < 1 <<< 63) (h : Item.nat m = Item.nat n) :
    m = n := by
  have h : Int64.ofNat m = Int64.ofNat n := number.inj h
  rw [← Int64.toInt_inj, Int64.toInt_ofNat_of_lt hm, Int64.toInt_ofNat_of_lt hn] at h
  exact Int.ofNat.inj h

/-! ### Runs of things with items -/

/-- Whatever stands behind them, the bytes of `a` and `b` differ unless their views agree. -/
def Separates {α β : Type} (code : α → List Item) (view : α → β) (a b : α) : Prop :=
  ∀ s t, pack (code a) ++ s = pack (code b) ++ t → view a = view b ∧ s = t

/-- Runs of equal length are told apart element by element. -/
lemma Separates.flatMap {α β : Type} {code : α → List Item} {view : α → β} {as bs : List α}
    (h : ∀ a ∈ as, ∀ b ∈ bs, Separates code view a b) (hl : as.length = bs.length) :
    ∀ s t, pack (as.flatMap code) ++ s = pack (bs.flatMap code) ++ t →
      as.map view = bs.map view ∧ s = t := by
  induction as generalizing bs with
  | nil =>
    intro s t e
    rw [List.length_eq_zero_iff.1 hl.symm] at e ⊢
    exact ⟨rfl, e⟩
  | cons a as ih =>
    cases bs with
    | nil => cases hl
    | cons b bs =>
      intro s t e
      rw [List.flatMap_cons, List.flatMap_cons, pack_append, pack_append, List.append_assoc,
        List.append_assoc] at e
      obtain ⟨hab, e⟩ := h a List.mem_cons_self b List.mem_cons_self _ _ e
      have h (a) (ha : a ∈ as) (b) (hb : b ∈ bs) : Separates code view a b :=
        h a (List.mem_cons_of_mem _ ha) b (List.mem_cons_of_mem _ hb)
      obtain ⟨hmap, hst⟩ := ih h (Nat.succ.inj hl) _ _ e
      exact ⟨by rw [List.map_cons, List.map_cons, hab, hmap], hst⟩

end Item

end NestedPath
