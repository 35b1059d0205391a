import NestedPath.Proofs.Items

/-!
How deep packed objects nest.

Bytes are described as a run of objects, each with the number of levels of lists and maps in it.
Passing over such a run under a limit succeeds just if no object goes beyond the limit; otherwise
the limit is what stops it, since nothing else is wrong with the bytes.
-/

namespace NestedPath

open Reader

/-- The levels of a list or map whose elements have these levels. -/
def levelsOver (ds : List Nat) : Nat := (ds.map (· + 1)).foldr max 0

lemma levelsOver_lt {ds : List Nat} {n : Nat} : levelsOver ds < n + 1 ↔ ∀ d ∈ ds, d < n := by
  rw [Nat.lt_succ_iff, levelsOver, Value.foldr_max_le, List.forall_mem_map]
  rfl

lemma levelsOver_le {ds : List Nat} {n : Nat} : levelsOver ds ≤ n + 1 ↔ ∀ d ∈ ds, d ≤ n := by
  rw [← Nat.lt_succ_iff, levelsOver_lt]
  simp only [Nat.lt_succ_iff]

namespace Reader

/-- What the front of an object calls for: so many bytes, and then so many objects. -/
def head (l : String) : Reader (Nat × Nat) := do
  extent (← byte l) l

lemma skipWithin_succ (max : Nat) (l : String) (room : Nat) :
    skipWithin max l (room + 1) = head l >>= fun x =>
      bytes x.1 l >>= fun _ => skipTimes (skipWithin max l room) x.2 := by
  rw [skipWithin, head, bind_assoc]

lemma framed_head (l : String) : Framed (head l) :=
  (framed_byte l).bind fun b => framed_extent b l

lemma ne_nil_of_reads_head {x : Nat × Nat} {hd : Bytes} (h : Reads (head "") hd x) : hd ≠ [] := by
  rintro rfl
  exact absurd (h []) (by simp [head, bind_apply, byte])

lemma le_head {l l' : String} : Le (head l) (head l') := le_byte.bind fun b => le_extent b

end Reader

/-- The bytes are a run of packed objects that have these levels, one after the other. -/
inductive Nests : List Nat → Bytes → Prop
  | nil : Nests [] []
  | cons {hd body bs cs : Bytes} {inner ds : List Nat}
      (hhead : Reads (head "") hd (body.length, inner.length)) (hinner : Nests inner bs)
      (hrest : Nests ds cs) : Nests (levelsOver inner :: ds) (hd ++ (body ++ (bs ++ cs)))

namespace Nests

variable {ds es : List Nat} {d n : Nat} {hd body bs cs : Bytes}

/-! ### Runs of objects -/

lemma append (h : Nests ds bs) (h' : Nests es cs) : Nests (ds ++ es) (bs ++ cs) := by
  induction h with
  | nil => exact h'
  | cons hhead hinner _ _ ih =>
    simp only [List.append_assoc] at ih ⊢
    exact .cons hhead hinner ih

lemma flatMap {α : Type} {f : α → Bytes} {g : α → List Nat} {as : List α}
    (h : ∀ a ∈ as, Nests (g a) (f a)) : Nests (as.flatMap g) (as.flatMap f) := by
  induction as with
  | nil => exact nil
  | cons a as ih =>
    rw [List.flatMap_cons, List.flatMap_cons]
    exact (h a List.mem_cons_self).append (ih fun b hb => h b (List.mem_cons_of_mem _ hb))

lemma map {α : Type} {f : α → Bytes} {g : α → Nat} {as : List α}
    (h : ∀ a ∈ as, Nests [g a] (f a)) : Nests (as.map g) (as.flatMap f) := by
  rw [List.map_eq_flatMap]
  exact flatMap h

/-- Every level takes at least a byte. -/
lemma lt_length (h : Nests ds bs) : ∀ d ∈ ds, d < bs.length := by
  induction h with
  | nil => simp
  | @cons hd body bs cs inner ds hhead _ _ ihi ih =>
    have hpos := List.length_pos_iff.2 (ne_nil_of_reads_head hhead)
    have hinner := levelsOver_lt.2 ihi
    refine List.forall_mem_cons.2 ⟨?_, fun d hd => ?_⟩
    · simp only [List.length_append]
      omega
    · have := ih d hd
      simp only [List.length_append]
      omega

/-! ### Forms of objects -/

lemma leaf (h : Reads (head "") hd (body.length, 0)) : Nests [0] (hd ++ body) := by
  have h' : Nests [0] (hd ++ (body ++ ([] ++ []))) := cons h nil nil
  rwa [List.nil_append, List.append_nil] at h'

lemma node (h : Reads (head "") hd (0, ds.length)) (hds : Nests ds bs) :
    Nests [levelsOver ds] (hd ++ bs) := by
  have h' : Nests [levelsOver ds] (hd ++ ([] ++ (bs ++ []))) := cons h hds nil
  rwa [List.nil_append, List.append_nil] at h'

lemma fixed {b : UInt8} (h : extent b "" = pure (body.length, 0)) : Nests [0] (b :: body) := by
  have hhead : Reads (head "") [b] (body.length, 0) := by
    refine (reads_byte "" b).bind_nil ?_
    rw [h]
    exact Reads.pure _
  exact leaf hhead

lemma reads_head {short long : Nat → Marker} {k : Nat → Nat × Nat} (h : Lead short long n hd)
    (hs : ∀ b, Marker.ofByte b = short n → extent b "" = pure (k n))
    (hl : ∀ b width, Marker.ofByte b = long width →
      extent b "" = uint width "" >>= fun n => pure (k n)) : Reads (head "") hd (k n) := by
  have hr := h.reads (l := "") (f := fun b => extent b "") (g := fun n => pure (k n)) hs hl
    (Reads.pure (k n))
  rwa [List.append_nil] at hr

lemma reads_head_array (h : Lead .fixarray .array n hd) : Reads (head "") hd (0, n) := by
  refine reads_head (k := fun n => (0, n)) h (fun b hb => ?_) (fun b width hb => ?_)
  · rw [extent, hb]
  · rw [extent, hb]

lemma reads_head_map (h : Lead .fixmap .map n hd) : Reads (head "") hd (0, 2 * n) := by
  refine reads_head (k := fun n => (0, 2 * n)) h (fun b hb => ?_) (fun b width hb => ?_)
  · rw [extent, hb]
  · rw [extent, hb]

lemma array (h : Lead .fixarray .array ds.length hd) (hds : Nests ds bs) :
    Nests [levelsOver ds] (hd ++ bs) :=
  node (reads_head_array h) hds

lemma pairs (h : Lead .fixmap .map n hd) (hn : ds.length = 2 * n) (hds : Nests ds bs) :
    Nests [levelsOver ds] (hd ++ bs) := by
  have hr := reads_head_map h
  rw [← hn] at hr
  exact node hr hds

lemma text (h : Lead .fixstr .str body.length hd) : Nests [0] (hd ++ body) := by
  refine leaf (reads_head (k := fun n => (n, 0)) h (fun b hb => ?_) (fun b width hb => ?_))
  · rw [extent, hb]
  · rw [extent, hb]

lemma number {n : Int64} (h : NumberLead n hd) : Nests [0] hd := by
  cases h with
  | short hb => exact fixed (by rw [extent, hb]; rfl)
  | uint hb hl hn => exact fixed (by rw [extent, hb, hl])
  | int hb hl hn => exact fixed (by rw [extent, hb, hl])

end Nests

/-- The item is an object by itself, to which no others belong. -/
def Item.Leaf : Item → Prop
  | array n | map n => n = 0
  | packed _ => False
  | _ => True

lemma Item.nests {i : Item} (hs : i.Sized) (hl : i.Leaf) : Nests [0] i.bytes := by
  cases i with
  | array n =>
    obtain rfl : n = 0 := hl
    have h : Nests [levelsOver []] (Item.bytes (.array 0) ++ []) := .array (lead_array hs) .nil
    rwa [List.append_nil] at h
  | map n =>
    obtain rfl : n = 0 := hl
    have h : Nests [levelsOver []] (Item.bytes (.map 0) ++ []) := .pairs (lead_map hs) rfl .nil
    rwa [List.append_nil] at h
  | number n => exact Nests.number (lead_number n)
  | double d =>
    have hl : extent 0xcb "" = pure ((bigEndian 8 d.bits.toNat).length, 0) := by
      rw [length_bigEndian]
      rfl
    exact Nests.fixed hl
  | bool b => cases b <;> exact Nests.fixed rfl
  | nil => exact Nests.fixed rfl
  | text s =>
    have hl := lead_sizeHeader hs
    rw [← length_utf8 s] at hl
    exact Nests.text hl
  | particle type body =>
    have hl : Lead .fixstr .str (type :: body).length (sizeHeader (body.length + 1)) :=
      lead_sizeHeader hs
    exact Nests.text hl
  | packed bs => exact hl.elim
  | ext type =>
    have h : Nests [0] ([0xc7, 0] ++ [type]) := Nests.leaf fun _ => rfl
    exact h

namespace Item

variable {i : Item} {is js : List Item} {ds es : List Nat} {d n : Nat} {bs : Bytes}

lemma nests_cons (hi : Nests [d] i.bytes) (h : Nests ds (pack is)) :
    Nests (d :: ds) (pack (i :: is)) := by
  rw [pack_cons]
  exact hi.append h

lemma nests_append (h : Nests ds (pack is)) (h' : Nests es (pack js)) :
    Nests (ds ++ es) (pack (is ++ js)) := by
  rw [pack_append]
  exact h.append h'

lemma nests_nat (n : Nat) (h : Nests ds (pack is)) : Nests (0 :: ds) (pack (.nat n :: is)) :=
  nests_cons (Item.nests trivial trivial) h

/-- The header of a list in front of as many objects as it counts is one object with them. -/
lemma nests_array (hlen : ds.length = n) (hn : n < 1 <<< 32) (h : Nests ds (pack is)) :
    Nests [levelsOver ds] (pack (.array n :: is)) := by
  subst hlen
  rw [pack_cons]
  exact Nests.array (lead_array hn) h

end Item

/-! ### Passing over them -/

namespace Reader

section

variable {α β : Type} {r : Reader α} {f : α → Reader β} {a : α} {b : β} {e : DecodeError}
  {bs cs : Bytes} {p q : Prop}

/-- The reader takes the bytes for `a` if `p` holds and fails with `e` if not, whatever follows. -/
def ReadsElse (p : Prop) (e : DecodeError) (r : Reader α) (bs : Bytes) (a : α) : Prop :=
  ∀ rest, (p → r (bs ++ rest) = .ok a rest) ∧ (¬ p → ∃ left, r (bs ++ rest) = .error e left)

lemma Reads.readsElse (e : DecodeError) (h : Reads r bs a) : ReadsElse True e r bs a :=
  fun rest => ⟨fun _ => h rest, fun hn => absurd trivial hn⟩

lemma ReadsElse.throw (hp : ¬ p) : ReadsElse p e (throw e : Reader α) bs a :=
  fun rest => ⟨fun h => absurd h hp, fun _ => ⟨bs ++ rest, rfl⟩⟩

lemma ReadsElse.congr (h : ReadsElse p e r bs a) (hpq : p ↔ q) : ReadsElse q e r bs a := by
  rwa [← propext hpq]

lemma ReadsElse.bind (hr : ReadsElse p e r bs a) (hf : ReadsElse q e (f a) cs b) :
    ReadsElse (p ∧ q) e (r >>= f) (bs ++ cs) b := by
  intro rest
  rw [List.append_assoc]
  have hr := hr (cs ++ rest)
  by_cases hp : p
  · rw [bind_of_ok (hr.1 hp)]
    have hf := hf rest
    exact ⟨fun h => hf.1 h.2, fun h => hf.2 fun hq => h ⟨hp, hq⟩⟩
  · obtain ⟨left, h⟩ := hr.2 hp
    exact ⟨fun h => absurd h.1 hp, fun _ => ⟨left, bind_of_error h⟩⟩

lemma Reads.bind_else (hr : Reads r bs a) (hf : ReadsElse q e (f a) cs b) :
    ReadsElse q e (r >>= f) (bs ++ cs) b :=
  ((hr.readsElse e).bind hf).congr (by simp)

end

variable {max room : Nat} {l : String} {ds : List Nat} {bs s t : Bytes}

/-- A run of objects is passed over just if there is room for every one of them. -/
lemma readsElse_skipTimes (h : Nests ds bs) (max : Nat) (l : String) (room : Nat) :
    ReadsElse (∀ d ∈ ds, d < room) (.tooDeep max) (skipTimes (skipWithin max l room) ds.length) bs
      () := by
  -- What is inside an object has one level of room less, what is behind it has the same.
  induction h generalizing room with
  | nil => exact ((Reads.pure ()).readsElse _).congr (by simp)
  | @cons hd body bs cs inner ds hhead _ _ ihi ih =>
    have hone : ReadsElse (levelsOver inner < room) (.tooDeep max) (skipWithin max l room)
        (hd ++ (body ++ bs)) () := by
      cases room with
      | zero => exact ReadsElse.throw (Nat.not_lt_zero _)
      | succ room =>
        rw [skipWithin_succ]
        have hi := (ihi room).congr levelsOver_lt.symm
        exact (le_head.reads hhead).bind_else ((reads_bytes l rfl).bind_else hi)
    have hboth := hone.bind (f := fun _ => skipTimes (skipWithin max l room) ds.length) (ih room)
    simp only [List.append_assoc] at hboth
    exact hboth.congr (by rw [List.forall_mem_cons])

lemma readsElse_skip {d : Nat} (h : Nests [d] bs) (max : Nat) (l : String) :
    ReadsElse (d ≤ max) (.tooDeep max) (skip max l) bs () := by
  have h1 := readsElse_skipTimes h max l (max + 1)
  have hone : skipTimes (skipWithin max l (max + 1)) [d].length = skip max l := by
    change (skip max l >>= fun _ => pure ()) = skip max l
    exact bind_pure_unit
  rw [hone] at h1
  exact h1.congr (by rw [List.forall_mem_singleton, Nat.lt_succ_iff])

lemma reads_object_of_nests {d : Nat} (h : Nests [d] bs) (hd : d ≤ max) :
    Reads (object max l) bs bs :=
  Reads.taken fun rest => (readsElse_skip h max l rest).1 hd

lemma exists_nests_of_skipTimes {one : Reader Unit} {n : Nat}
    (hone : ∀ s t, one s = .ok () t → ∃ d bs, s = bs ++ t ∧ Nests [d] bs)
    (h : skipTimes one n s = .ok () t) : ∃ ds bs, s = bs ++ t ∧ ds.length = n ∧ Nests ds bs := by
  induction n generalizing s with
  | zero =>
    obtain ⟨-, rfl⟩ := pure_eq_ok.1 h
    exact ⟨[], [], rfl, rfl, .nil⟩
  | succ n ih =>
    obtain ⟨⟨⟩, u, h1, h2⟩ := bind_eq_ok.1 h
    obtain ⟨d, bs, rfl, hd⟩ := hone _ _ h1
    obtain ⟨ds, cs, rfl, hlen, hds⟩ := ih h2
    exact ⟨d :: ds, bs ++ cs, (List.append_assoc ..).symm, congrArg Nat.succ hlen, hd.append hds⟩

lemma exists_nests_of_skipWithin (h : skipWithin max l room s = .ok () t) :
    ∃ d bs, s = bs ++ t ∧ Nests [d] bs := by
  induction room generalizing s t with
  | zero => exact absurd h throw_ne_ok
  | succ room ih =>
    rw [skipWithin_succ] at h
    obtain ⟨⟨size, count⟩, u, hhead, hu⟩ := bind_eq_ok.1 h
    obtain ⟨body, v, hbody, hv⟩ := bind_eq_ok.1 hu
    obtain ⟨hd, rfl, hhd⟩ := framed_head l _ _ _ hhead
    obtain ⟨rfl, rfl⟩ := bytes_eq_ok.1 hbody
    obtain ⟨inner, bs, rfl, rfl, hinner⟩ := exists_nests_of_skipTimes (fun _ _ => ih) hv
    refine ⟨levelsOver inner, hd ++ (body ++ (bs ++ [])), by simp, ?_⟩
    exact .cons (le_head.reads hhd) hinner .nil

lemma isObject_iff : IsObject bs ↔ ∃ d, Nests [d] bs := by
  constructor
  · rintro ⟨max, l, h⟩
    obtain ⟨d, cs, rfl, hd⟩ := exists_nests_of_skipWithin h
    rw [List.append_nil]
    exact ⟨d, hd⟩
  · rintro ⟨d, h⟩
    have hs := (readsElse_skip h d "" []).1 (Nat.le_refl d)
    rw [List.append_nil] at hs
    exact ⟨d, "", hs⟩

lemma Reads.isObject (h : Reads (skip max l) bs ()) : IsObject bs := by
  have hs := h []
  rw [List.append_nil] at hs
  exact ⟨max, l, hs⟩

/-! ### Measuring them -/

/-- Passes over an object and counts the levels in it. -/
def levelsWithin : Nat → Reader Nat
  | 0 => throw (.tooDeep 0)
  | room + 1 => do
    let (size, count) ← head ""
    let _ ← bytes size ""
    return levelsOver (← times (levelsWithin room) count [])

lemma reads_times_levels (h : Nests ds bs) (hroom : ∀ d ∈ ds, d < room) (done : List Nat) :
    Reads (times (levelsWithin room) ds.length done) bs (done.reverse ++ ds) := by
  induction h generalizing room done with
  | nil =>
    rw [List.append_nil]
    exact Reads.pure _
  | @cons hd body bs cs inner ds hhead _ _ ihi ih =>
    obtain ⟨hover, hroom⟩ := List.forall_mem_cons.1 hroom
    obtain ⟨room, rfl⟩ : ∃ n, room = n + 1 := ⟨room - 1, by omega⟩
    have hone : Reads (levelsWithin (room + 1)) (hd ++ (body ++ bs)) (levelsOver inner) := by
      have hi := ihi (levelsOver_lt.1 hover) []
      exact hhead.bind ((reads_bytes "" rfl).bind (hi.bind_nil (Reads.pure _)))
    have hrest := ih hroom (levelsOver inner :: done)
    rw [List.reverse_cons, List.append_assoc, List.singleton_append] at hrest
    have hboth : Reads (times (levelsWithin (room + 1)) (levelsOver inner :: ds).length done)
        (hd ++ (body ++ bs) ++ cs) (done.reverse ++ levelsOver inner :: ds) :=
      hone.bind hrest
    simp only [List.append_assoc] at hboth
    exact hboth

end Reader

def Bytes.levels (bs : Bytes) : Nat :=
  match levelsWithin bs.length bs with
  | .ok d _ => d
  | .error _ _ => 0

lemma Nests.levels_eq {d : Nat} {bs : Bytes} (h : Nests [d] bs) : bs.levels = d := by
  have hone := reads_times_levels h h.lt_length []
  have hr : times (levelsWithin bs.length) [d].length [] = (levelsWithin bs.length >>= fun d =>
      pure [d]) := rfl
  rw [hr] at hone
  obtain ⟨d', t, hd', he⟩ := bind_eq_ok.1 (hone [])
  obtain ⟨h1, rfl⟩ := pure_eq_ok.1 he
  rw [List.append_nil] at hd'
  obtain rfl : d' = d := by simpa using h1
  rw [Bytes.levels, hd']

lemma Reader.IsObject.nests {bs : Bytes} (h : IsObject bs) : Nests [bs.levels] bs := by
  obtain ⟨d, hd⟩ := isObject_iff.1 h
  rwa [hd.levels_eq]

lemma Reader.IsObject.ne_nil {bs : Bytes} (h : IsObject bs) : bs ≠ [] := by
  have hlt := h.nests.lt_length _ List.mem_cons_self
  exact List.length_pos_iff.1 (Nat.zero_lt_of_lt hlt)

/-- An object is passed over wherever there is room for the levels in it. -/
lemma Reader.IsObject.reads_skip {bs : Bytes} {max : Nat} (h : IsObject bs)
    (hmax : bs.levels ≤ max) (l : String) : Reads (skip max l) bs () :=
  fun rest => (readsElse_skip h.nests max l rest).1 hmax

/-- The bytes of an object have room enough for the levels in it. -/
lemma Reader.IsObject.skip_length {bs : Bytes} (h : IsObject bs) :
    skip bs.length "" bs = .ok () [] := by
  have hlt := h.nests.lt_length _ List.mem_cons_self
  have hs := h.reads_skip (Nat.le_of_lt hlt) "" []
  rwa [List.append_nil] at hs

instance (bs : Bytes) : Decidable (IsObject bs) :=
  match h : skip bs.length "" bs with
  | .ok () [] => isTrue ⟨bs.length, "", h⟩
  | .ok () (_ :: _) => isFalse fun ho => by cases h.symm.trans ho.skip_length
  | .error _ _ => isFalse fun ho => by cases h.symm.trans ho.skip_length

lemma Reader.Reads.levels_le {bs : Bytes} {max : Nat} {l : String}
    (h : Reads (skip max l) bs ()) : bs.levels ≤ max := by
  refine Nat.not_lt.1 fun hlt => ?_
  obtain ⟨left, he⟩ := (readsElse_skip h.isObject.nests max l []).2 (Nat.not_le.2 hlt)
  rw [h []] at he
  cases he

/-- An object is a stored program just if it is within the limit of depth. -/
lemma Program.ofBytes?_of_nests {d : Nat} {bs : Bytes} (h : Nests [d] bs) : ofBytes? bs =
    if d ≤ Limits.depth then .ok ⟨bs⟩ else .error (.tooDeep Limits.depth) := by
  have hs := readsElse_skip h Limits.depth "expression" []
  rw [List.append_nil] at hs
  by_cases hd : d ≤ Limits.depth
  · rw [ofBytes?, runOn, bind_of_ok (hs.1 hd), if_pos hd]
    rfl
  · obtain ⟨left, he⟩ := hs.2 hd
    rw [ofBytes?, runOn, bind_of_error he, if_neg hd]

end NestedPath
