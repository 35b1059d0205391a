import NestedPath.Proofs.Nesting

/-!
The forms of the packed format, byte by byte: the headers of lists and maps, the ten forms of a
number, and the objects that no others belong to. The first byte of a form is given as such, and
not by way of the markers that readers go by; what readers accept are these forms and no others.
-/

namespace NestedPath

/-! ### The forms -/

/-- The first bytes in front of unsigned numerals, with the widths of the numerals. -/
def unsignedForms : List (UInt8 × Nat) := [(0xcc, 1), (0xcd, 2), (0xce, 4), (0xcf, 8)]

/-- The first bytes in front of numerals in two's complement. -/
def signedForms : List (UInt8 × Nat) := [(0xd0, 1), (0xd1, 2), (0xd2, 4), (0xd3, 8)]

def bodyForms : List (UInt8 × Nat) :=
  [(0xd9, 1), (0xda, 2), (0xdb, 4), (0xc4, 1), (0xc5, 2), (0xc6, 4)]

def extForms : List (UInt8 × Nat) := [(0xc7, 1), (0xc8, 2), (0xc9, 4)]

def fixextForms : List (UInt8 × Nat) := [(0xd4, 1), (0xd5, 2), (0xd6, 4), (0xd7, 8), (0xd8, 16)]

def floatForms : List (UInt8 × Nat) := [(0xca, 4), (0xcb, 8)]

/-- A count in the low bits of the first byte, or in a numeral of two or four bytes behind it. -/
inductive CountForm (short wide2 wide4 : UInt8) (n : Nat) : Bytes → Prop
  | short (h : n < 16) : CountForm short wide2 wide4 n [short + UInt8.ofNat n]
  | wide2 {ds : Bytes} (hl : ds.length = 2) (hn : ofBigEndian ds = n) :
      CountForm short wide2 wide4 n (wide2 :: ds)
  | wide4 {ds : Bytes} (hl : ds.length = 4) (hn : ofBigEndian ds = n) :
      CountForm short wide2 wide4 n (wide4 :: ds)

inductive Branch where
  | list | map
  deriving DecidableEq

/-- The objects to an element of a list or an entry of a map. -/
def Branch.arity : Branch → Nat
  | list => 1
  | map => 2

def Header : Branch → Nat → Bytes → Prop
  | .list => CountForm 0x90 0xdc 0xdd
  | .map => CountForm 0x80 0xde 0xdf

lemma header_list_one : Header .list 1 [0x91] := .short (by decide)

lemma header_map_one : Header .map 1 [0x81] := .short (by decide)

/--
A number in the first byte or in a numeral behind it. Eight bytes without a sign are taken for
two's complement as well.
-/
inductive NumberForm : Int → Bytes → Prop
  | positive {b : UInt8} (h : b < 0x80) : NumberForm b.toNat [b]
  | negative {b : UInt8} (h : 0xe0 ≤ b) : NumberForm (b.toNat - 0x100) [b]
  | unsigned {b : UInt8} {width : Nat} {ds : Bytes} (hb : (b, width) ∈ unsignedForms)
      (hl : ds.length = width) : NumberForm (Int.bmod (ofBigEndian ds) (1 <<< 64)) (b :: ds)
  | signed {b : UInt8} {width : Nat} {ds : Bytes} (hb : (b, width) ∈ signedForms)
      (hl : ds.length = width) :
      NumberForm (Int.bmod (ofBigEndian ds) (1 <<< (8 * width))) (b :: ds)

inductive ExtForm : Bytes → Prop
  | fixed {b : UInt8} {n : Nat} {body : Bytes} (hb : (b, n) ∈ fixextForms)
      (hl : body.length = n + 1) : ExtForm (b :: body)
  | sized {b : UInt8} {width : Nat} {ds body : Bytes} (hb : (b, width) ∈ extForms)
      (hw : ds.length = width) (hl : body.length = ofBigEndian ds + 1) : ExtForm (b :: (ds ++ body))

/-- The extension that marks a map as ordered by key. -/
lemma extForm_keyOrdered : ExtForm [0xc7, 0, 1] :=
  @ExtForm.sized 0xc7 1 [0] [1] (by decide) rfl rfl

/-- An object that no others belong to. -/
inductive LeafForm : Bytes → Prop
  | number {n : Int} {bs : Bytes} (h : NumberForm n bs) : LeafForm bs
  | nil : LeafForm [0xc0]
  | bool (b : Bool) : LeafForm [if b then 0xc3 else 0xc2]
  | float {b : UInt8} {n : Nat} {body : Bytes} (hb : (b, n) ∈ floatForms)
      (hl : body.length = n) : LeafForm (b :: body)
  | text {body : Bytes} (hl : body.length < 32) :
      LeafForm ((0xa0 + UInt8.ofNat body.length) :: body)
  | body {b : UInt8} {width : Nat} {ds body : Bytes} (hb : (b, width) ∈ bodyForms)
      (hw : ds.length = width) (hl : body.length = ofBigEndian ds) : LeafForm (b :: (ds ++ body))
  | ext {bs : Bytes} (h : ExtForm bs) : LeafForm bs

/-! ### First bytes -/

namespace Marker

/-- The byte that has this marker, spelled out. -/
def IsOf (b : UInt8) : Marker → Prop
  | fixint n => b < 0x80 ∧ n.toInt = b.toNat ∨ 0xe0 ≤ b ∧ n.toInt = b.toNat - 0x100
  | fixmap n => n < 16 ∧ b = 0x80 + UInt8.ofNat n
  | fixarray n => n < 16 ∧ b = 0x90 + UInt8.ofNat n
  | fixstr n => n < 32 ∧ b = 0xa0 + UInt8.ofNat n
  | nil => b = 0xc0
  | reserved => b = 0xc1
  | bool v => b = if v then 0xc3 else 0xc2
  | bin width | str width => (b, width) ∈ bodyForms
  | ext width => (b, width) ∈ extForms
  | float32 => b = 0xca
  | float64 => b = 0xcb
  | uint width => (b, width) ∈ unsignedForms
  | int width => (b, width) ∈ signedForms
  | fixext n => (b, n) ∈ fixextForms
  | array width => (b, width) ∈ [((0xdc : UInt8), 2), (0xdd, 4)]
  | map width => (b, width) ∈ [((0xde : UInt8), 2), (0xdf, 4)]

/-- What the marker begins, if other objects belong to it. -/
def branch? : Marker → Option Branch
  | fixarray _ | array _ => some .list
  | fixmap _ | map _ => some .map
  | _ => none

lemma branch?_of_isExt {m : Marker} (h : m.isExt = true) : m.branch? = none := by
  cases m <;> first | rfl | cases h

instance (b : UInt8) (m : Marker) : Decidable (m.IsOf b) := by
  cases m <;> unfold IsOf <;> infer_instance

lemma isOf_ofByte (b : UInt8) : (ofByte b).IsOf b := by
  have h : ∀ n < 256, (ofByte (UInt8.ofNat n)).IsOf (UInt8.ofNat n) := by decide +kernel
  have hb := h b.toNat b.toNat_lt
  rwa [UInt8.ofNat_toNat] at hb

lemma isOf_of_ofByte {b : UInt8} {m : Marker} (h : ofByte b = m) : m.IsOf b := h ▸ isOf_ofByte b

lemma ofByte_of_lt {b : UInt8} (h : b < 0x80) : ofByte b = .fixint (Int64.ofNat b.toNat) :=
  if_pos (UInt8.lt_iff_toNat_lt.1 h)

lemma ofByte_of_ge {b : UInt8} (h : 0xe0 ≤ b) :
    ofByte b = .fixint (Int64.ofInt (b.toNat - 0x100)) := by
  have hb : 0xe0 ≤ b.toNat := UInt8.le_iff_toNat_le.1 h
  simp only [ofByte]
  rw [if_neg (by omega), if_neg (by omega), if_neg (by omega), if_neg (by omega),
    if_neg (by omega)]

lemma ofByte_unsigned : ∀ p ∈ unsignedForms, ofByte p.1 = .uint p.2 := by decide

lemma ofByte_signed : ∀ p ∈ signedForms, ofByte p.1 = .int p.2 := by decide

lemma ofByte_body : ∀ p ∈ bodyForms, ofByte p.1 = .str p.2 ∨ ofByte p.1 = .bin p.2 := by decide

lemma ofByte_float : ∀ p ∈ floatForms, ofByte p.1 = .float32 ∨ ofByte p.1 = .float64 := by decide

lemma ofByte_ext : ∀ p ∈ extForms, ofByte p.1 = .ext p.2 := by decide

lemma ofByte_fixext : ∀ p ∈ fixextForms, ofByte p.1 = .fixext p.2 := by decide

lemma ofByte_array : ∀ p ∈ [((0xdc : UInt8), 2), (0xdd, 4)], ofByte p.1 = .array p.2 := by decide

lemma ofByte_map : ∀ p ∈ [((0xde : UInt8), 2), (0xdf, 4)], ofByte p.1 = .map p.2 := by decide

end Marker

/-! ### Headers and numbers -/

section

variable {n : Nat} {i : Int64} {hd : Bytes}

/-- A count that markers of one kind tell is in one of its three forms. -/
lemma lead_iff_countForm {short long : Nat → Marker} {least wide2 wide4 : UInt8}
    (hshort : ∀ b k, Marker.ofByte b = short k ↔ k < 16 ∧ b = least + UInt8.ofNat k)
    (hlong : ∀ b w, Marker.ofByte b = long w ↔ (b, w) ∈ [(wide2, 2), (wide4, 4)]) :
    Lead short long n hd ↔ CountForm least wide2 wide4 n hd := by
  constructor
  · intro h
    cases h with
    | short hb =>
      obtain ⟨hn, rfl⟩ := (hshort _ _).1 hb
      exact .short hn
    | long hb hl hn =>
      have h := (hlong _ _).1 hb
      simp only [List.mem_cons, Prod.mk.injEq, List.not_mem_nil, or_false] at h
      rcases h with ⟨rfl, rfl⟩ | ⟨rfl, rfl⟩
      · exact .wide2 hl hn
      · exact .wide4 hl hn
  · intro h
    cases h with
    | short h => exact .short ((hshort _ _).2 ⟨h, rfl⟩)
    | wide2 hl hn => exact .long ((hlong _ _).2 List.mem_cons_self) hl hn
    | wide4 hl hn => exact .long ((hlong _ _).2 (by simp)) hl hn

lemma lead_list_iff : Lead .fixarray .array n hd ↔ Header .list n hd := by
  refine lead_iff_countForm (fun b k => ⟨Marker.isOf_of_ofByte, ?_⟩)
    fun b w => ⟨Marker.isOf_of_ofByte, ?_⟩
  · rintro ⟨hk, rfl⟩
    exact Marker.ofByte_fixarray k hk
  · exact Marker.ofByte_array (b, w)

lemma lead_map_iff : Lead .fixmap .map n hd ↔ Header .map n hd := by
  refine lead_iff_countForm (fun b k => ⟨Marker.isOf_of_ofByte, ?_⟩)
    fun b w => ⟨Marker.isOf_of_ofByte, ?_⟩
  · rintro ⟨hk, rfl⟩
    exact Marker.ofByte_fixmap k hk
  · exact Marker.ofByte_map (b, w)

/-- A numeral in two's complement of at most eight bytes is the number that it says. -/
lemma bmod_bmod_of_le {k width : Nat} (h : width ≤ 8) :
    (Int.bmod k (1 <<< (8 * width))).bmod (1 <<< 64) = Int.bmod k (1 <<< (8 * width)) := by
  have hle : 1 <<< (8 * width) ≤ 1 <<< 64 := by
    rw [Nat.one_shiftLeft, Nat.one_shiftLeft]
    exact Nat.pow_le_pow_right (by decide) (by omega)
  have h1 := Int.le_bmod (x := k) (place_pos width)
  have h2 := Int.bmod_lt (x := k) (place_pos width)
  refine Int.bmod_eq_of_le_mul_two ?_ ?_ <;> omega

lemma numberLead_iff : NumberLead i hd ↔ NumberForm i.toInt hd := by
  have hsmall : ∀ p ∈ signedForms, p.2 ≤ 8 := by decide
  constructor
  · intro h
    cases h with
    | short hb =>
      rcases Marker.isOf_of_ofByte hb with ⟨h, hn⟩ | ⟨h, hn⟩
      · rw [hn]
        exact .positive h
      · rw [hn]
        exact .negative h
    | @uint b width ds hb hl hn =>
      have hi : i.toInt = Int.bmod (ofBigEndian ds) (1 <<< 64) := by
        rw [← hn]
        exact Int64.toInt_ofNat'
      rw [hi]
      exact .unsigned (Marker.isOf_of_ofByte hb) hl
    | @int b width ds hb hl hn =>
      have hwidth := Marker.isOf_of_ofByte hb
      have hi : i.toInt = Int.bmod (ofBigEndian ds) (1 <<< (8 * width)) := by
        rw [← hn]
        exact Int64.toInt_ofInt.trans (bmod_bmod_of_le (hsmall _ hwidth))
      rw [hi]
      exact .signed hwidth hl
  · generalize hi : i.toInt = z
    intro h
    cases h with
    | positive h =>
      refine .short ?_
      rw [Marker.ofByte_of_lt h, ← Int64.ofInt_eq_ofNat, ← hi, Int64.ofInt_toInt]
    | negative h =>
      refine .short ?_
      rw [Marker.ofByte_of_ge h, ← hi, Int64.ofInt_toInt]
    | @unsigned b width ds hb hl =>
      refine .uint (Marker.ofByte_unsigned _ hb) hl ?_
      rw [← Int64.toInt_inj, hi]
      exact Int64.toInt_ofNat'
    | @signed b width ds hb hl =>
      refine .int (Marker.ofByte_signed _ hb) hl ?_
      rw [← Int64.toInt_inj, hi]
      exact Int64.toInt_ofInt.trans (bmod_bmod_of_le (hsmall _ hb))

end

/-! ### Readers -/

open Reader

namespace Reader

variable {n : Nat} {i : Int64} {l : String} {s t : Bytes}

/-- The header of a list is read in its three forms, and nothing else is. -/
lemma arrayHeader_eq_ok : arrayHeader l s = .ok n t ↔ ∃ hd, Header .list n hd ∧ s = hd ++ t := by
  constructor
  · intro h
    obtain ⟨b, u, hb, hu⟩ := bind_eq_ok.1 h
    rw [byte_eq_ok] at hb
    subst hb
    cases hm : Marker.ofByte b with
    | fixarray count =>
      rw [hm] at hu
      obtain ⟨rfl, rfl⟩ := pure_eq_ok.1 hu
      exact ⟨[b], lead_list_iff.1 (.short hm), rfl⟩
    | array width =>
      rw [hm] at hu
      obtain ⟨ds, rfl, hl, hn⟩ := uint_eq_ok.1 hu
      exact ⟨b :: ds, lead_list_iff.1 (.long hm hl hn), rfl⟩
    | _ =>
      rw [hm] at hu
      exact absurd hu throw_ne_ok
  · rintro ⟨hd, h, rfl⟩
    exact (lead_list_iff.2 h).reads_arrayHeader l t

/-- A number is read in its ten forms, and nothing else is. -/
lemma number_eq_ok : number l s = .ok i t ↔ ∃ hd, NumberForm i.toInt hd ∧ s = hd ++ t := by
  constructor
  · intro h
    obtain ⟨b, u, hb, hu⟩ := bind_eq_ok.1 h
    rw [byte_eq_ok] at hb
    subst hb
    unfold numberAfter? at hu
    cases hm : Marker.ofByte b with
    | fixint n =>
      rw [hm] at hu
      obtain ⟨rfl, rfl⟩ := pure_eq_ok.1 hu
      exact ⟨[b], numberLead_iff.1 (.short hm), rfl⟩
    | uint width =>
      rw [hm] at hu
      obtain ⟨n, v, hn, hv⟩ := bind_eq_ok.1 hu
      obtain ⟨rfl, rfl⟩ := pure_eq_ok.1 hv
      obtain ⟨ds, rfl, hl, rfl⟩ := uint_eq_ok.1 hn
      exact ⟨b :: ds, numberLead_iff.1 (.uint hm hl rfl), rfl⟩
    | int width =>
      rw [hm] at hu
      obtain ⟨n, v, hn, hv⟩ := bind_eq_ok.1 hu
      obtain ⟨rfl, rfl⟩ := pure_eq_ok.1 hv
      obtain ⟨ds, rfl, hl, rfl⟩ := uint_eq_ok.1 hn
      exact ⟨b :: ds, numberLead_iff.1 (.int hm hl rfl), rfl⟩
    | _ =>
      rw [hm] at hu
      exact absurd hu throw_ne_ok
  · rintro ⟨hd, h, rfl⟩
    exact (numberLead_iff.2 h).reads_number l t

end Reader

/-! ### Fronts of objects -/

section

variable {m n : Nat} {hd bs : Bytes}

lemma Header.reads_head {kind : Branch} (h : Header kind n hd) :
    Reads (head "") hd (0, kind.arity * n) := by
  cases kind with
  | list =>
    rw [Branch.arity, Nat.one_mul]
    exact Nests.reads_head_array (lead_list_iff.2 h)
  | map => exact Nests.reads_head_map (lead_map_iff.2 h)

lemma Nests.sized {b : UInt8} {width k : Nat} {ds body : Bytes}
    (h : extent b "" = uint width "" >>= fun n => pure (n + k, 0)) (hw : ds.length = width)
    (hl : body.length = ofBigEndian ds + k) : Nests [0] (b :: (ds ++ body)) := by
  have hhead : Reads (head "") (b :: ds) (body.length, 0) := by
    refine (reads_byte "" b).bind ?_
    rw [h, hl]
    exact (reads_uint "" hw rfl).bind_nil (Reads.pure _)
  exact Nests.leaf hhead

lemma ExtForm.nests (h : ExtForm bs) : Nests [0] bs := by
  cases h with
  | fixed hb hl => exact Nests.fixed (by rw [extent, Marker.ofByte_fixext _ hb, hl])
  | sized hb hw hl => exact Nests.sized (by rw [extent, Marker.ofByte_ext _ hb]) hw hl

lemma NumberForm.nests {i : Int} (h : NumberForm i bs) : Nests [0] bs := by
  cases h with
  | positive h => exact Nests.fixed (by rw [extent, Marker.ofByte_of_lt h]; rfl)
  | negative h => exact Nests.fixed (by rw [extent, Marker.ofByte_of_ge h]; rfl)
  | unsigned hb hl => exact Nests.fixed (by rw [extent, Marker.ofByte_unsigned _ hb, hl])
  | signed hb hl => exact Nests.fixed (by rw [extent, Marker.ofByte_signed _ hb, hl])

lemma LeafForm.nests (h : LeafForm bs) : Nests [0] bs := by
  cases h with
  | number h => exact h.nests
  | nil => exact Nests.fixed rfl
  | bool b => cases b <;> exact Nests.fixed rfl
  | float hb hl =>
    simp only [floatForms, List.mem_cons, Prod.mk.injEq, List.not_mem_nil, or_false] at hb
    rcases hb with ⟨rfl, rfl⟩ | ⟨rfl, rfl⟩
    · exact Nests.fixed (by rw [hl]; rfl)
    · exact Nests.fixed (by rw [hl]; rfl)
  | text hl => exact Nests.text (.short (Marker.ofByte_fixstr _ hl))
  | body hb hw hl =>
    have hext := Marker.ofByte_body _ hb
    refine Nests.sized (k := 0) ?_ hw hl
    rcases hext with h | h
    · rw [extent, h]
      rfl
    · rw [extent, h]
      rfl
  | ext h => exact h.nests

/-- The front of an object is that of one that no others belong to, or it is a header. -/
lemma head_cases (h : Reads (head "") hd (m, n)) :
    (n = 0 ∧ ∀ body, body.length = m → LeafForm (hd ++ body)) ∨
      m = 0 ∧ ∃ kind k, n = Branch.arity kind * k ∧ Header kind k hd := by
  obtain ⟨b, u, hb, hu⟩ := bind_eq_ok.1 (h [])
  rw [List.append_nil, byte_eq_ok] at hb
  subst hb
  unfold extent at hu
  have hm := Marker.isOf_ofByte b
  -- `hu` is what is read behind the first byte, `hm` spells this byte out.
  cases hb : Marker.ofByte b <;> rw [hb] at hu hm
  case fixint i =>
    cases hu
    refine .inl ⟨rfl, fun body hl => ?_⟩
    rw [List.length_eq_zero_iff.1 hl]
    exact .number (numberLead_iff.1 (.short hb))
  case nil =>
    cases hu
    refine .inl ⟨rfl, fun body hl => ?_⟩
    rw [List.length_eq_zero_iff.1 hl, hm]
    exact .nil
  case bool v =>
    cases hu
    refine .inl ⟨rfl, fun body hl => ?_⟩
    rw [List.length_eq_zero_iff.1 hl, hm]
    exact .bool v
  case uint width =>
    cases hu
    exact .inl ⟨rfl, fun body hl => .number (.unsigned hm hl)⟩
  case int width =>
    cases hu
    exact .inl ⟨rfl, fun body hl => .number (.signed hm hl)⟩
  case float32 =>
    cases hu
    rw [hm]
    exact .inl ⟨rfl, fun body hl => .float (by decide) hl⟩
  case float64 =>
    cases hu
    rw [hm]
    exact .inl ⟨rfl, fun body hl => .float (by decide) hl⟩
  case fixstr size =>
    cases hu
    obtain ⟨hlt, rfl⟩ := hm
    refine .inl ⟨rfl, fun body hl => ?_⟩
    subst hl
    exact .text hlt
  case fixext size =>
    cases hu
    exact .inl ⟨rfl, fun body hl => .ext (.fixed hm hl)⟩
  case str width =>
    obtain ⟨k, v, hk, hv⟩ := bind_eq_ok.1 hu
    obtain ⟨ds, rfl, hw, rfl⟩ := uint_eq_ok.1 hk
    cases hv
    exact .inl ⟨rfl, fun body hl => by simpa using LeafForm.body hm hw hl⟩
  case bin width =>
    obtain ⟨k, v, hk, hv⟩ := bind_eq_ok.1 hu
    obtain ⟨ds, rfl, hw, rfl⟩ := uint_eq_ok.1 hk
    cases hv
    exact .inl ⟨rfl, fun body hl => by simpa using LeafForm.body hm hw hl⟩
  case ext width =>
    obtain ⟨k, v, hk, hv⟩ := bind_eq_ok.1 hu
    obtain ⟨ds, rfl, hw, rfl⟩ := uint_eq_ok.1 hk
    cases hv
    exact .inl ⟨rfl, fun body hl => by simpa using LeafForm.ext (ExtForm.sized hm hw hl)⟩
  case fixarray count =>
    cases hu
    exact .inr ⟨rfl, .list, n, (Nat.one_mul n).symm, lead_list_iff.1 (.short hb)⟩
  case array width =>
    obtain ⟨k, v, hk, hv⟩ := bind_eq_ok.1 hu
    obtain ⟨ds, rfl, hw, hn⟩ := uint_eq_ok.1 hk
    cases hv
    rw [List.append_nil]
    exact .inr ⟨rfl, .list, n, (Nat.one_mul n).symm, lead_list_iff.1 (.long hb hw hn)⟩
  case fixmap count =>
    cases hu
    exact .inr ⟨rfl, .map, count, rfl, lead_map_iff.1 (.short hb)⟩
  case map width =>
    obtain ⟨k, v, hk, hv⟩ := bind_eq_ok.1 hu
    obtain ⟨ds, rfl, hw, hn⟩ := uint_eq_ok.1 hk
    cases hv
    rw [List.append_nil]
    exact .inr ⟨rfl, .map, k, rfl, lead_map_iff.1 (.long hb hw hn)⟩
  case reserved => exact absurd hu throw_ne_ok

end

end NestedPath
