import Mathlib.Data.List.Basic
import NestedPath.Base64
import NestedPath.Proofs.Text

/-!
Base64 undoes itself: the text of any bytes, with blanks around it or not, stands for these bytes.

Bytes are whole groups of three and a last group of one to three. Each group is a run of digits,
filled up with padding, and the digits alone give the group back.
-/

namespace NestedPath

/-! ### Pieces -/

section

variable {α : Type} {k : Nat}

/-- Whole pieces in front are cut off as they are. -/
lemma chunksOnto_flatten (ps : List (List α)) (h : ∀ p ∈ ps, p.length = k + 1)
    (done : List (List α)) (as : List α) :
    chunksOnto k done (ps.flatten ++ as) = chunksOnto k (ps.reverse ++ done) as := by
  induction ps generalizing done with
  | nil => rfl
  | cons p ps ih =>
    obtain ⟨hp, hps⟩ := List.forall_mem_cons.1 h
    cases p with
    | nil => simp at hp
    | cons a p =>
      have hp : p.length = k := Nat.succ.inj hp
      rw [List.flatten_cons, List.append_assoc, List.cons_append, chunksOnto,
        List.take_append_of_le_length (by omega), List.take_of_length_le (by omega),
        List.drop_append_of_le_length (by omega), List.drop_of_length_le (by omega),
        List.nil_append, ih hps, List.reverse_cons, List.append_assoc, List.singleton_append]

lemma chunksOnto_last {p : List α} (h : p ≠ []) (hp : p.length ≤ k + 1) (done : List (List α)) :
    chunksOnto k done p = done.reverse ++ [p] := by
  cases p with
  | nil => exact absurd rfl h
  | cons a p =>
    rw [List.length_cons] at hp
    rw [chunksOnto, List.take_of_length_le (by omega), List.drop_of_length_le (by omega),
      chunksOnto, List.reverse_cons]

/-- Every list but the empty one is a run of whole pieces and a last piece. -/
lemma exists_pieces (k : Nat) : ∀ as : List α, as ≠ [] →
    ∃ (ps : List (List α)) (p : List α),
      as = ps.flatten ++ p ∧ (∀ q ∈ ps, q.length = k + 1) ∧ p ≠ [] ∧ p.length ≤ k + 1 := by
  intro as
  induction h : as.length using Nat.strongRecOn generalizing as with
  | ind n ih =>
    intro hne
    by_cases hk : as.length ≤ k + 1
    · exact ⟨[], as, rfl, by simp, hne, hk⟩
    · have hd : (as.drop (k + 1)).length < n := by rw [List.length_drop]; omega
      have hne' : as.drop (k + 1) ≠ [] := by
        intro h0
        rw [List.drop_eq_nil_iff] at h0
        omega
      obtain ⟨ps, p, hps, hall, hp, hl⟩ := ih _ hd _ rfl hne'
      refine ⟨as.take (k + 1) :: ps, p, ?_, ?_, hp, hl⟩
      · rw [List.flatten_cons, List.append_assoc, ← hps, List.take_append_drop]
      · refine List.forall_mem_cons.2 ⟨?_, hall⟩
        rw [List.length_take]
        omega

end

namespace Base64

/-! ### Digits -/

lemma value?_digit : ∀ n < 64, value? (asciiByte (digit n)) = some n := by decide

lemma digit_ne_pad : ∀ n < 64, asciiByte (digit n) ≠ pad := by decide

lemma digit_plain : ∀ n < 64, (digit n).toNat < 128 ∧ isBlank (digit n) = false := by decide

/-- The digits of one to three bytes, the last of them filled up with zero bits. -/
def sextets : Bytes → List Nat
  | [a, b, c] =>
    let n := (a.toNat * 256 + b.toNat) * 256 + c.toNat
    [n / 0x40000, n / 0x1000 % 64, n / 64 % 64, n % 64]
  | [a, b] =>
    let n := a.toNat * 256 + b.toNat
    [n / 0x400, n / 16 % 64, n % 16 * 4]
  | [a] => [a.toNat / 4, a.toNat % 4 * 16]
  | _ => []

/-- A group of bytes that is written as one group of characters. -/
inductive Group : Bytes → Prop
  | one (a : UInt8) : Group [a]
  | two (a b : UInt8) : Group [a, b]
  | three (a b c : UInt8) : Group [a, b, c]

lemma group_of_length {p : Bytes} (h : p ≠ []) (hl : p.length ≤ 3) : Group p := by
  match p with
  | [] => exact absurd rfl h
  | [a] => exact .one a
  | [a, b] => exact .two a b
  | [a, b, c] => exact .three a b c
  | _ :: _ :: _ :: _ :: _ =>
    simp only [List.length_cons] at hl
    omega

namespace Group

variable {p : Bytes}

lemma group_eq (h : Group p) :
    group p = (sextets p).map digit ++ List.replicate (3 - p.length) '=' := by
  cases h <;> rfl

lemma length_sextets (h : Group p) : (sextets p).length = p.length + 1 := by
  cases h <;> rfl

lemma length_pos_le (h : Group p) : 0 < p.length ∧ p.length ≤ 3 := by
  cases h <;> simp

lemma sextets_lt (h : Group p) : ∀ d ∈ sextets p, d < 64 := by
  cases h with
  | one a =>
    have ha : a.toNat < 256 := a.toNat_lt
    simp only [sextets, List.forall_mem_cons]
    exact ⟨by omega, by omega, by simp⟩
  | two a b =>
    have ha : a.toNat < 256 := a.toNat_lt
    have hb : b.toNat < 256 := b.toNat_lt
    simp only [sextets, List.forall_mem_cons]
    exact ⟨by omega, by omega, by omega, by simp⟩
  | three a b c =>
    have ha : a.toNat < 256 := a.toNat_lt
    have hb : b.toNat < 256 := b.toNat_lt
    have hc : c.toNat < 256 := c.toNat_lt
    simp only [sextets, List.forall_mem_cons]
    exact ⟨by omega, by omega, by omega, by omega, by simp⟩

lemma surplus_sextets (h : Group p) : surplus (sextets p) = 0 := by
  cases h with
  | one a => simp only [sextets, surplus]; omega
  | two a b => simp only [sextets, surplus]; omega
  | three a b c => rfl

lemma ofNat_eq {a : UInt8} {n : Nat} (h : n % 256 = a.toNat) : UInt8.ofNat n = a := by
  rw [← UInt8.toNat_inj, UInt8.toNat_ofNat']
  exact h

lemma ofDigits_sextets (h : Group p) : ofDigits (sextets p) = p := by
  cases h with
  | one a =>
    have ha : a.toNat < 256 := a.toNat_lt
    simp only [sextets, ofDigits]
    rw [ofNat_eq]
    omega
  | two a b =>
    have ha : a.toNat < 256 := a.toNat_lt
    have hb : b.toNat < 256 := b.toNat_lt
    simp only [sextets, ofDigits]
    rw [ofNat_eq (a := a) (by omega), ofNat_eq (a := b) (by omega)]
  | three a b c =>
    have ha : a.toNat < 256 := a.toNat_lt
    have hb : b.toNat < 256 := b.toNat_lt
    have hc : c.toNat < 256 := c.toNat_lt
    simp only [sextets, ofDigits]
    rw [ofNat_eq (a := a) (by omega), ofNat_eq (a := b) (by omega), ofNat_eq (a := c) (by omega)]

end Group

/-! ### Runs of digits -/

def codes (ds : List Nat) : Bytes := ds.map fun d => asciiByte (digit d)

lemma digits_codes (ds : List Nat) (offset : Nat) (h : ∀ d ∈ ds, d < 64) :
    digits offset (codes ds) = .ok ds := by
  induction ds generalizing offset with
  | nil => rfl
  | cons d ds ih =>
    obtain ⟨hd, hds⟩ := List.forall_mem_cons.1 h
    have ih := ih (offset + 1) hds
    rw [digits] at ih ⊢
    rw [codes, List.map_cons, List.zipIdx_cons, List.mapM_cons, ← codes, ih]
    simp only [value?_digit d hd]
    rfl

lemma codes_ne_pad {ds : List Nat} (h : ∀ d ∈ ds, d < 64) : ∀ b ∈ codes ds, (b != pad) = true := by
  intro b hb
  obtain ⟨d, hd, rfl⟩ := List.mem_map.1 hb
  exact bne_iff_ne.2 (digit_ne_pad d (h d hd))

lemma lastDigits_codes (start m : Nat) {ds : List Nat} (h : ∀ d ∈ ds, d < 64) (hl : 2 ≤ ds.length) :
    lastDigits start (codes ds ++ List.replicate m pad) = .ok ds := by
  have hp := codes_ne_pad h
  have hback : (List.replicate m pad).dropWhile (· != pad) = List.replicate m pad := by
    cases m <;> rfl
  have hfront : (List.replicate m pad).takeWhile (· != pad) = [] := by
    cases m <;> rfl
  have hany : (List.replicate m pad).any (· != pad) = false := by
    rw [List.any_eq_false]
    intro b hb
    rw [(List.mem_replicate.1 hb).2]
    decide
  have hlen : ¬ (codes ds).length < 2 := by
    rw [codes, List.length_map]
    omega
  unfold lastDigits
  simp only [List.takeWhile_append_of_pos hp, List.dropWhile_append_of_pos hp, hback, hfront,
    List.append_nil, digits_codes ds start h, hany, hlen]
  cases (List.replicate m pad).isEmpty <;> rfl

lemma map_group {p : Bytes} (h : Group p) :
    (group p).map asciiByte = codes (sextets p) ++ List.replicate (3 - p.length) pad := by
  rw [h.group_eq, List.map_append, List.map_map, List.map_replicate]
  rfl

lemma length_map_group {p : Bytes} (h : Group p) : ((group p).map asciiByte).length = 4 := by
  have := h.length_pos_le
  rw [map_group h, List.length_append, codes, List.length_map, h.length_sextets,
    List.length_replicate]
  omega

lemma lastGroup_group (start : Nat) {p : Bytes} (h : Group p) :
    lastGroup start ((group p).map asciiByte) = .ok p := by
  have hl := h.length_pos_le
  have hds := h.length_sextets
  have h4 := length_map_group h
  have hlast := lastDigits_codes start (3 - p.length) h.sextets_lt (by omega)
  unfold lastGroup
  rw [h4, map_group h, hlast]
  change (if (sextets p).length < 2 then _ else _) = _
  rw [if_neg (by omega)]
  rw [if_neg (by decide)]
  change (if surplus (sextets p) ≠ 0 then _ else _) = _
  rw [h.surplus_sextets, if_neg (by decide)]
  exact congrArg Except.ok h.ofDigits_sextets

/-! ### Whole texts -/

def chars (bs : Bytes) : List Char := (threes bs).flatMap group

lemma chars_pieces {ps : List Bytes} {p : Bytes} (hps : ∀ q ∈ ps, q.length = 3) (h : Group p) :
    chars (ps.flatten ++ p) = ps.flatMap group ++ group p := by
  have hp := h.length_pos_le
  have hne : p ≠ [] := List.length_pos_iff.1 hp.1
  rw [chars, threes, chunksOnto_flatten ps hps, chunksOnto_last hne hp.2, List.append_nil,
    List.reverse_reverse, List.flatMap_append, List.flatMap_singleton]

lemma group_of_piece {ps : List Bytes} (hps : ∀ q ∈ ps, q.length = 3) {q : Bytes} (hq : q ∈ ps) :
    Group q := by
  have hl := hps q hq
  refine group_of_length (fun h0 => ?_) (Nat.le_of_eq hl)
  rw [h0] at hl
  cases hl

/-- Whole groups are written without padding. -/
lemma map_groups {ps : List Bytes} (hps : ∀ q ∈ ps, q.length = 3) :
    (ps.flatMap group).map asciiByte = codes (ps.map sextets).flatten := by
  rw [List.map_flatMap, codes, List.map_flatten, List.map_map, ← List.flatMap_def]
  refine List.flatMap_congr fun q hq => ?_
  rw [map_group (group_of_piece hps hq), hps q hq]
  exact List.append_nil _

lemma fours_sextets {ps : List Bytes} (hps : ∀ q ∈ ps, q.length = 3) :
    (fours (ps.map sextets).flatten).flatMap ofDigits = ps.flatten := by
  have h4 : ∀ ds ∈ ps.map sextets, ds.length = 3 + 1 := by
    intro ds hds
    obtain ⟨q, hq, rfl⟩ := List.mem_map.1 hds
    rw [(group_of_piece hps hq).length_sextets, hps q hq]
  have hf := chunksOnto_flatten (ps.map sextets) h4 [] []
  rw [List.append_nil, List.append_nil, chunksOnto, List.reverse_reverse] at hf
  rw [fours, hf, List.flatMap_map, List.flatten_eq_flatMap]
  exact List.flatMap_congr fun q hq => (group_of_piece hps hq).ofDigits_sextets

lemma sextets_flatten_lt {ps : List Bytes} (hps : ∀ q ∈ ps, q.length = 3) :
    ∀ d ∈ (ps.map sextets).flatten, d < 64 := by
  intro d hd
  obtain ⟨ds, hds, hd⟩ := List.mem_flatten.1 hd
  obtain ⟨q, hq, rfl⟩ := List.mem_map.1 hds
  exact (group_of_piece hps hq).sextets_lt d hd

lemma length_sextets_flatten {ps : List Bytes} (hps : ∀ q ∈ ps, q.length = 3) :
    (ps.map sextets).flatten.length = ps.length * 4 := by
  induction ps with
  | nil => rfl
  | cons q ps ih =>
    have hq := (group_of_piece hps List.mem_cons_self).length_sextets
    obtain ⟨h3, hps⟩ := List.forall_mem_cons.1 hps
    rw [List.map_cons, List.flatten_cons, List.length_append, ih hps, hq, h3, List.length_cons]
    omega

lemma strayByte?_eq_none {bs : Bytes} (h : bs.length % 4 = 0) : strayByte? bs = none := by
  rw [strayByte?, if_neg (by omega)]

lemma decodeBytes_chars (bs : Bytes) : decodeBytes ((chars bs).map asciiByte) = .ok bs := by
  by_cases hne : bs = []
  · rw [hne, chars, threes, chunksOnto]
    rfl
  obtain ⟨ps, p, rfl, hps, hp, hl⟩ := exists_pieces 2 bs hne
  have h := group_of_length hp hl
  have hlast := length_map_group h
  have hfront : (codes (ps.map sextets).flatten).length = ps.length * 4 := by
    rw [codes, List.length_map, length_sextets_flatten hps]
  rw [chars_pieces hps h, List.map_append, map_groups hps]
  -- the last group starts where the whole groups end
  generalize hf : codes (ps.map sextets).flatten = front at hfront ⊢
  generalize hg : (group p).map asciiByte = back at hlast ⊢
  have hlen : (front ++ back).length = ps.length * 4 + 4 := by
    rw [List.length_append, hfront, hlast]
  have hstart : ((front ++ back).length - 1) / 4 * 4 = front.length := by omega
  have hempty : (front ++ back).isEmpty = false := by
    rw [List.isEmpty_eq_false_iff, ← List.length_pos_iff]
    omega
  rw [decodeBytes, strayByte?_eq_none (by omega)]
  simp only [hstart, hempty, List.take_left, List.drop_left]
  rw [← hf, digits_codes _ 0 (sextets_flatten_lt hps), hf, ← hg]
  change (lastGroup _ _ >>= _) = _
  rw [lastGroup_group _ h]
  exact congrArg Except.ok (congrArg (· ++ p) (fours_sextets hps))

/-- A character that is neither blank nor outside of ASCII. -/
def Plain (c : Char) : Prop := c.toNat < 128 ∧ isBlank c = false

lemma plain_chars (bs : Bytes) : ∀ c ∈ chars bs, Plain c := by
  have hpad : Plain '=' := ⟨by decide, by decide⟩
  have hgroup {p : Bytes} (h : Group p) : ∀ c ∈ group p, Plain c := by
    intro c hc
    rw [h.group_eq, List.mem_append] at hc
    rcases hc with hc | hc
    · obtain ⟨d, hd, rfl⟩ := List.mem_map.1 hc
      exact digit_plain d (h.sextets_lt d hd)
    · rw [(List.mem_replicate.1 hc).2]
      exact hpad
  by_cases hne : bs = []
  · rw [hne, chars, threes, chunksOnto]
    exact fun c hc => absurd hc List.not_mem_nil
  obtain ⟨ps, p, rfl, hps, hp, hl⟩ := exists_pieces 2 bs hne
  have h := group_of_length hp hl
  intro c hc
  rw [chars_pieces hps h, List.mem_append, List.mem_flatMap] at hc
  rcases hc with ⟨q, hq, hc⟩ | hc
  · exact hgroup (group_of_piece hps hq) c hc
  · exact hgroup h c hc

/-- The text of any bytes stands for them, and blanks around it do not matter. -/
theorem decode_encode (bs : Bytes) {w x : String} (hw : ∀ c ∈ w.toList, isBlank c = true)
    (hx : ∀ c ∈ x.toList, isBlank c = true) : decode (w ++ encode bs ++ x) = .ok bs := by
  have hc := plain_chars bs
  rw [decode, String.toList_append, String.toList_append, encode, String.toList_ofList,
    ← chars, trimBlank_append hw (fun c h => (hc c h).2) hx, utf8_ofList _ fun c h => (hc c h).1,
    decodeBytes_chars]

end Base64

end NestedPath
