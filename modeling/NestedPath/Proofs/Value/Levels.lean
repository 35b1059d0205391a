import NestedPath.Proofs.Value.Keys

/-!
How deep the bytes of a value go that has been read.

The limit of depth holds along lists, keys and values. Within the object beside the mark of a map's
order the levels are counted afresh, so there the bytes can go down as far again.
-/

namespace NestedPath

open Reader

namespace Packed

def inner : Packed → List Packed
  | leaf _ => []
  | branch _ _ inner => inner

def isBranch : Packed → Bool
  | leaf _ => false
  | branch .. => true

/-- The object is an extension, by its first byte. -/
def isExt : Packed → Bool
  | leaf (b :: _) => (Marker.ofByte b).isExt
  | _ => false

/-- The object beside the mark of a map's order. -/
def besideMark? : Packed → Option Packed
  | branch .map _ (mark :: beside :: _) => if mark.isExt then some beside else none
  | _ => none

/-- The objects that belong to a list or map, but for the mark of its order and the one beside. -/
def plain : Packed → List Packed
  | branch .map _ (mark :: beside :: inner) =>
    if mark.isExt then inner else mark :: beside :: inner
  | o => o.inner

/-- So many levels below the first object lies the second. -/
inductive Lies (down : Packed → List Packed) : Nat → Packed → Packed → Prop
  | here (o : Packed) : Lies down 0 o o
  | deeper {k : Nat} {o c d : Packed} (hc : c ∈ down o) (h : Lies down k c d) :
      Lies down (k + 1) o d

variable {o c d b : Packed} {down down' : Packed → List Packed} {j k : Nat} {kind : Branch}
  {hd : Bytes} {os : List Packed}

lemma Lies.mono (h : ∀ o, ∀ c ∈ down o, c ∈ down' o) (ho : Lies down k o c) : Lies down' k o c := by
  induction ho with
  | here o => exact .here o
  | deeper hc _ ih => exact .deeper (h _ _ hc) ih

lemma Lies.trans (ho : Lies down j o c) (hc : Lies down k c d) : Lies down (j + k) o d := by
  induction ho with
  | here o => rwa [Nat.zero_add]
  | deeper hc' _ ih =>
    rw [Nat.succ_add]
    exact .deeper hc' (ih hc)

lemma mem_inner_of_plain (h : c ∈ o.plain) : c ∈ o.inner := by
  unfold plain at h
  split at h
  · split at h
    · exact List.mem_cons_of_mem _ (List.mem_cons_of_mem _ h)
    · exact h
  · exact h

lemma mem_inner_of_besideMark? (h : o.besideMark? = some b) : b ∈ o.inner := by
  unfold besideMark? at h
  split at h
  · split at h
    · cases h
      exact List.mem_cons_of_mem _ List.mem_cons_self
    · cases h
  · cases h

/-- What belongs to a map is an entry's, the object beside the mark of its order, or the mark. -/
lemma mem_inner_cases (h : c ∈ o.inner) :
    c ∈ o.plain ∨ o.besideMark? = some c ∨ ∃ bs, c = leaf bs := by
  unfold plain besideMark?
  split
  · rename_i hd mark beside inner
    split
    · rename_i hext
      rcases List.mem_cons.1 h with rfl | h
      · cases c with
        | leaf bs => exact .inr (.inr ⟨bs, rfl⟩)
        | branch => cases hext
      · rcases List.mem_cons.1 h with rfl | h
        · exact .inr (.inl rfl)
        · exact .inl h
    · exact .inl h
  · exact .inl h

lemma levels_lt_of_mem (h : c ∈ o.inner) : c.levels < o.levels := by
  cases o with
  | leaf bs => cases h
  | branch kind hd os =>
    rw [levels]
    exact levelsOver_lt.1 (Nat.lt_succ_self _) _ (List.mem_map_of_mem h)

lemma Lies.le_levels (h : Lies inner k o c) : k ≤ o.levels := by
  induction h with
  | here o => exact Nat.zero_le _
  | deeper hc _ ih => exact Nat.lt_of_le_of_lt ih (levels_lt_of_mem hc)

/-- There are as many levels as it takes to come to the deepest object. -/
lemma levels_lt_iff {n : Nat} : o.levels < n ↔ ∀ k c, Lies inner k o c → k < n := by
  constructor
  · intro h k c hc
    exact Nat.lt_of_le_of_lt hc.le_levels h
  intro h
  induction o generalizing n with
  | leaf bs =>
    rw [levels]
    exact h 0 _ (.here _)
  | branch kind hd os ih =>
    obtain ⟨n, rfl⟩ : ∃ m, n = m + 1 := ⟨n - 1, by have := h 0 _ (.here _); omega⟩
    rw [levels, levelsOver_lt, List.forall_mem_map]
    intro c hc
    refine ih c hc fun k d hd => ?_
    have := h (k + 1) d (.deeper hc hd)
    omega

lemma levels_le_iff {n : Nat} : o.levels ≤ n ↔ ∀ k c, Lies inner k o c → k ≤ n := by
  simp only [← Nat.lt_succ_iff, levels_lt_iff]

/-- The way down keeps to entries or goes through the object beside a mark of order. -/
lemma Lies.cases_beside (h : Lies inner k o c) (hc : c.isBranch) : Lies plain k o c ∨
    ∃ i m b j, Lies plain i o m ∧ m.besideMark? = some b ∧ Lies inner j b c ∧ k = i + 1 + j := by
  induction h with
  | here o => exact .inl (.here o)
  | @deeper k o d c hd hdc ih =>
    rcases mem_inner_cases hd with hplain | hbeside | ⟨bs, rfl⟩
    · rcases ih hc with h | ⟨i, m, b, j, hm, hb, hj, rfl⟩
      · exact .inl (.deeper hplain h)
      · exact .inr ⟨i + 1, m, b, j, .deeper hplain hm, hb, hj, by omega⟩
    · exact .inr ⟨0, o, d, k, .here o, hbeside, hdc, by omega⟩
    · -- Nothing lies below the mark, and the mark itself is no list or map.
      cases hdc with
      | here => cases hc
      | deeper hmem => cases hmem

/--
The tree of bytes that are read with so much room: along lists, keys and values there is room for
every object, and the object beside a mark of order keeps to the limit by itself.
-/
structure Within (max room : Nat) (o : Packed) : Prop where
  wellFormed : o.WellFormed
  isExt_eq : o.isExt = false
  lt_room : ∀ k c, Lies plain k o c → k < room
  beside_le : ∀ k m b, Lies plain k o m → m.besideMark? = some b → b.levels ≤ max
  levels_lt : o.levels < room + max + 1

variable {max room n : Nat}

lemma Within.leaf {bs : Bytes} (h : LeafForm bs) (hext : (leaf bs).isExt = false) :
    Within max (room + 1) (leaf bs) where
  wellFormed := .leaf h
  isExt_eq := hext
  lt_room k c hc := by
    cases hc with
    | here => exact Nat.succ_pos room
    | deeper hmem => cases hmem
  beside_le k m b hm hb := by
    cases hm with
    | here => cases hb
    | deeper hmem => cases hmem
  levels_lt := by
    rw [levels]
    omega

/-- There is one level less room for what belongs to a list or map. -/
lemma Within.branch (hwf : (branch kind hd os).WellFormed)
    (hplain : ∀ c ∈ (branch kind hd os).plain, Within max room c)
    (hbeside : ∀ b, (branch kind hd os).besideMark? = some b → b.levels ≤ max) :
    Within max (room + 1) (branch kind hd os) where
  wellFormed := hwf
  isExt_eq := rfl
  lt_room k c hc := by
    cases hc with
    | here => exact Nat.succ_pos room
    | deeper hmem hc => exact Nat.succ_lt_succ ((hplain _ hmem).lt_room _ _ hc)
  beside_le k m b hm hb := by
    cases hm with
    | here => exact hbeside b hb
    | deeper hmem hm => exact (hplain _ hmem).beside_le _ _ _ hm hb
  levels_lt := by
    have hlt : ∀ c ∈ os, c.levels < room + max + 1 := by
      intro c hc
      have hinner : c ∈ (Packed.branch kind hd os).inner := hc
      rcases mem_inner_cases hinner with hc | hc | ⟨bs, rfl⟩
      · exact (hplain c hc).levels_lt
      · have := hbeside c hc
        omega
      · rw [levels]
        omega
    have h : levelsOver (os.map fun c => c.levels) < room + max + 1 + 1 :=
      levelsOver_lt.2 (List.forall_mem_map.2 hlt)
    rw [levels]
    omega

/-! ### Reading -/

/-- Objects that are no extensions are all entries'. -/
lemma plain_of_isExt_eq (h : ∀ c ∈ os, c.isExt = false) :
    (branch kind hd os).plain = os ∧ (branch kind hd os).besideMark? = none := by
  match kind, os with
  | .list, os => exact ⟨rfl, rfl⟩
  | .map, [] => exact ⟨rfl, rfl⟩
  | .map, [c] => exact ⟨rfl, rfl⟩
  | .map, c :: d :: os =>
    rw [plain, besideMark?, h c List.mem_cons_self]
    exact ⟨rfl, rfl⟩

/-- Parts that are so many objects each are together a run of objects. -/
lemma exists_of_parts {α : Type} {P : Packed → Prop} {R : Bytes → α → Prop} {size : Nat}
    {parts : List Bytes} {as : List α} (h : List.Forall₂ R parts as)
    (hR : ∀ part a, R part a →
      ∃ os : List Packed, os.length = size ∧ (∀ o ∈ os, P o) ∧ os.flatMap bytes = part) :
    ∃ os : List Packed,
      os.length = size * as.length ∧ (∀ o ∈ os, P o) ∧ os.flatMap bytes = parts.flatten := by
  induction h with
  | nil => exact ⟨[], rfl, List.forall_mem_nil _, rfl⟩
  | cons ha _ ih =>
    obtain ⟨os, hlen, hos, rfl⟩ := hR _ _ ha
    obtain ⟨ps, hlen', hps, hbytes⟩ := ih
    refine ⟨os ++ ps, ?_, ?_, ?_⟩
    · rw [List.length_append, hlen, hlen', List.length_cons, Nat.mul_succ, Nat.add_comm]
    · intro o ho
      exact (List.mem_append.1 ho).elim (hos o) (hps o)
    · rw [List.flatMap_append, hbytes, List.flatten_cons]

end Packed

namespace Value

open Packed

variable {v : Value} {max room n : Nat} {s t : Bytes}

lemma exists_within (h : readWithin max room s = .ok v t) :
    ∃ o : Packed, Within max room o ∧ s = o.bytes ++ t := by
  induction room generalizing s v t with
  | zero => exact absurd h throw_ne_ok
  | succ room ih =>
    obtain ⟨hf, ht⟩ := framed_takes_readWithin max room
    cases front s with
    | @list n hd rest hh =>
      rw [readWithin_list hh, readList_eq_ok] at h
      obtain ⟨-, -, vs, hvs, rfl⟩ := h
      obtain ⟨rfl, parts, rfl, hparts⟩ := hf.times_eq_ok.1 hvs
      have hone (part : Bytes) (v : Value) (hv : Reads (readWithin max room) part v) :
          ∃ os : List Packed, os.length = 1 ∧ (∀ o ∈ os, Within max room o) ∧
            os.flatMap Packed.bytes = part := by
        obtain ⟨o, ho, e⟩ := ih (hv [])
        exact ⟨[o], rfl, List.forall_mem_singleton.2 ho, by simpa using e.symm⟩
      obtain ⟨os, hlen, hos, hbytes⟩ := exists_of_parts hparts hone
      have hwf : ∀ c ∈ os, c.WellFormed := fun c hc => (hos c hc).wellFormed
      refine ⟨.branch .list hd os, .branch (.branch hh hlen hwf) hos ?_, ?_⟩
      · simp [besideMark?]
      · rw [Packed.bytes, List.append_assoc, hbytes]
    | @map n hd rest hh =>
      rw [readWithin_map hh, readMap_iff_parts hf ht (unmarked_readWithin max room)] at h
      obtain ⟨-, k, mark, parts, new, es, hk, rfl, rfl, hparts, rfl, -, -⟩ := h
      have htwo (part : Bytes) (e : Value × Value)
          (he : Reads (readEntry (readWithin max room)) part e) : ∃ os : List Packed,
            os.length = 2 ∧ (∀ o ∈ os, Within max room o) ∧ os.flatMap Packed.bytes = part := by
        obtain ⟨u, hkey, hvalue⟩ := readEntry_eq_ok.1 (he [])
        obtain ⟨o, ho, e⟩ := ih hkey
        obtain ⟨p, hp, rfl⟩ := ih hvalue
        refine ⟨[o, p], rfl, ?_, by simpa using e.symm⟩
        exact List.forall_mem_cons.2 ⟨ho, List.forall_mem_singleton.2 hp⟩
      obtain ⟨os, hlen, hos, hbytes⟩ := exists_of_parts hparts htwo
      have hwf : ∀ c ∈ os, c.WellFormed := fun c hc => (hos c hc).wellFormed
      cases hk with
      | none =>
        obtain ⟨hplain, hbeside⟩ := plain_of_isExt_eq fun c hc => (hos c hc).isExt_eq
        refine ⟨.branch .map hd os, .branch (.branch hh ?_ hwf) ?_ ?_, ?_⟩
        · rw [hlen, Nat.zero_add, Branch.arity]
        · rwa [hplain]
        · simp [hbeside]
        · rw [Packed.bytes, List.append_assoc, hbytes, List.nil_append]
      | @some mark b hm hb hmax =>
        -- The mark and the object beside it take the place of a key and a value.
        obtain ⟨x, ds, rfl, hx⟩ := isExt_of_ext hm
        have hext : (Packed.leaf (x :: ds)).isExt = true := hx
        refine ⟨.branch .map hd (.leaf (x :: ds) :: b :: os), .branch (.branch hh ?_ ?_) ?_ ?_, ?_⟩
        · rw [List.length_cons, List.length_cons, hlen, Branch.arity]
          omega
        · exact List.forall_mem_cons.2 ⟨.leaf (.ext hm), List.forall_mem_cons.2 ⟨hb, hwf⟩⟩
        · rwa [plain, if_pos hext]
        · rw [besideMark?, if_pos hext]
          rintro _ ⟨⟩
          exact hmax
        · rw [Packed.bytes, List.flatMap_cons, List.flatMap_cons, Packed.bytes, hbytes]
          simp only [List.append_assoc]
    | flat heq hok _ =>
      obtain ⟨b, u, hs, hb⟩ := unmarked_readWithin _ _ _ _ _ h
      rw [heq] at h
      obtain ⟨-, bs, hleaf, rfl⟩ := hok v t h
      refine ⟨.leaf bs, .leaf hleaf ?_, by rw [Packed.bytes]⟩
      obtain ⟨b', ds, rfl, -⟩ := marker_of_leaf hleaf
      obtain ⟨rfl, -⟩ := List.cons.inj hs
      exact hb

/--
What is read as a value is one object, and along lists, keys and values it goes no deeper than the
limit. In the object beside a mark of order levels count afresh, so that all headers are within the
limit just if those in such objects are; in any case they are within twice the limit and one more.
-/
theorem read_levels (h : read max s = .ok v t) : ∃ o : Packed, o.WellFormed ∧ s = o.bytes ++ t ∧
    (∀ k c, Lies plain k o c → k ≤ max) ∧
    (∀ k m b, Lies plain k o m → m.besideMark? = some b → b.levels ≤ max) ∧
    ((∀ k c, Lies inner k o c → c.isBranch → k ≤ max) ↔
      ∀ k m b, Lies plain k o m → m.besideMark? = some b →
        ∀ j c, Lies inner j b c → c.isBranch → k + 1 + j ≤ max) ∧
    ∀ k c, Lies inner k o c → k ≤ 2 * max + 1 := by
  obtain ⟨o, ho, rfl⟩ := exists_within h
  have hplain : ∀ k c, Lies plain k o c → k ≤ max := fun k c hc =>
    Nat.le_of_lt_succ (ho.lt_room k c hc)
  refine ⟨o, ho.wellFormed, rfl, hplain, ho.beside_le, ⟨fun hall k m b hm hb j c hc => ?_, ?_⟩, ?_⟩
  · have hm := hm.mono fun o c => mem_inner_of_plain
    have hlies : Lies inner (k + 1 + j) o c := by
      rw [Nat.add_assoc, Nat.add_comm 1 j]
      exact hm.trans (.deeper (mem_inner_of_besideMark? hb) hc)
    exact hall _ _ hlies
  · intro hbeside k c hc hbranch
    rcases hc.cases_beside hbranch with hc | ⟨i, m, b, j, hm, hb, hj, rfl⟩
    · exact hplain k c hc
    · exact hbeside i m b hm hb j c hj hbranch
  · intro k c hc
    have h1 := hc.le_levels
    have h2 := ho.levels_lt
    omega

set_option maxRecDepth 2000 in
/-- The list beside the mark of an empty map has a list in it, below the one level allowed. -/
theorem read_levels_beside :
    read 1 [0x81, 0xc7, 0, 1, 0x91, 0x90] = .ok (.map []) [] ∧
      ∃ o : Packed, o.WellFormed ∧ [0x81, 0xc7, 0, 1, 0x91, 0x90] = o.bytes ++ [] ∧
        ∀ k c, Lies inner k o c → k ≤ 3 := by
  have hread : read 1 [0x81, 0xc7, 0, 1, 0x91, 0x90] = .ok (.map []) [] := rfl
  obtain ⟨o, ho, hs, -, -, -, hbound⟩ := read_levels hread
  exact ⟨hread, o, ho, hs, hbound⟩

set_option maxRecDepth 2000 in
/-- Not every header that is read keeps to the limit of depth. -/
theorem not_read_levels_le :
    ¬ ∀ (max : Nat) (s t : Bytes) (v : Value) (o : Packed), read max s = .ok v t → o.WellFormed →
      s = o.bytes ++ t → ∀ k c, Lies inner k o c → c.isBranch → k ≤ max := by
  intro hall
  let o : Packed := .branch .map [0x81]
    [.leaf [0xc7, 0, 1], .branch .list [0x91] [.branch .list [0x90] []]]
  have hbytes : o.bytes = [0x81, 0xc7, 0, 1, 0x91, 0x90] := by
    simp [o, Packed.bytes]
  have hread : read 1 o.bytes = .ok (.map []) [] := by
    rw [hbytes]
    rfl
  have hempty : Header .list 0 [0x90] := .short (by decide)
  have ho : o.WellFormed := by
    refine .branch header_map_one rfl ?_
    rw [List.forall_mem_cons, List.forall_mem_singleton]
    refine ⟨.leaf (.ext extForm_keyOrdered), .branch header_list_one rfl ?_⟩
    rw [List.forall_mem_singleton]
    exact .branch hempty rfl (List.forall_mem_nil _)
  have hlies : Lies inner 2 o (.branch .list [0x90] []) :=
    .deeper (List.mem_cons_of_mem _ List.mem_cons_self) (.deeper List.mem_cons_self (.here _))
  exact absurd (hall 1 _ _ _ o hread ho (List.append_nil _).symm 2 _ hlies rfl) (by decide)

end Value

end NestedPath
