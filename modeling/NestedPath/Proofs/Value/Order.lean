import Mathlib.Tactic.SplitIfs
import NestedPath.Proofs.Value.Shape

/-!
The laws of the order on values: it is total, and it finds no difference only between a value and
itself. Maps that grow by insertions therefore have ascending keys.
-/

namespace NestedPath

/-! ### First differences of lists -/

section Lex

variable {α : Type} {cmp : α → α → Ordering} {as bs cs : List α}

lemma compareLex_swap (h : ∀ a ∈ as, ∀ b, cmp b a = (cmp a b).swap) :
    List.compareLex cmp bs as = (List.compareLex cmp as bs).swap := by
  induction as generalizing bs with
  | nil => cases bs <;> rfl
  | cons a as ih =>
    cases bs with
    | nil => rfl
    | cons b bs =>
      have ih := @ih bs fun a ha => h a (List.mem_cons_of_mem _ ha)
      simp only [List.compareLex_cons_cons, h a List.mem_cons_self b, ih, Ordering.swap_then]

lemma compareLex_eq_eq (h : ∀ a ∈ as, ∀ b, cmp a b = .eq ↔ a = b) :
    List.compareLex cmp as bs = .eq ↔ as = bs := by
  induction as generalizing bs with
  | nil => cases bs <;> simp [List.compareLex_nil_nil, List.compareLex_nil_cons]
  | cons a as ih =>
    cases bs with
    | nil => simp [List.compareLex_cons_nil]
    | cons b bs =>
      have ih := @ih bs fun a ha => h a (List.mem_cons_of_mem _ ha)
      rw [List.compareLex_cons_cons, Ordering.then_eq_eq, h a List.mem_cons_self b, ih,
        List.cons.injEq]

/-- Strict descents compose if they do element by element. -/
lemma compareLex_lt_trans (heq : ∀ a b, cmp a b = .eq ↔ a = b)
    (h : ∀ a ∈ as, ∀ b c, cmp a b = .lt → cmp b c = .lt → cmp a c = .lt)
    (h1 : List.compareLex cmp as bs = .lt) (h2 : List.compareLex cmp bs cs = .lt) :
    List.compareLex cmp as cs = .lt := by
  induction as generalizing bs cs with
  | nil =>
    cases bs with
    | nil => simp [List.compareLex_nil_nil] at h1
    | cons b bs =>
      cases cs with
      | nil => simp [List.compareLex_cons_nil] at h2
      | cons c cs => exact List.compareLex_nil_cons
  | cons a as ih =>
    cases bs with
    | nil => simp [List.compareLex_cons_nil] at h1
    | cons b bs =>
      cases cs with
      | nil => simp [List.compareLex_cons_nil] at h2
      | cons c cs =>
        rw [List.compareLex_cons_cons, Ordering.then_eq_lt] at h1 h2 ⊢
        have ih := @ih bs cs fun a ha => h a (List.mem_cons_of_mem _ ha)
        simp only [heq] at h1 h2 ⊢
        rcases h1 with h1 | ⟨rfl, h1⟩
        · rcases h2 with h2 | ⟨rfl, h2⟩
          · exact .inl (h a List.mem_cons_self b c h1 h2)
          · exact .inl h1
        · rcases h2 with h2 | ⟨rfl, h2⟩
          · exact .inl h2
          · exact .inr ⟨rfl, ih h1 h2⟩

end Lex

namespace Double

lemma orderKey_inj {d e : Double} (h : d.orderKey = e.orderKey) : d = e := by
  have hd : d.bits.toNat < 1 <<< 64 := d.bits.toNat_lt
  have he : e.bits.toNat < 1 <<< 64 := e.bits.toNat_lt
  simp only [orderKey, negative, decide_eq_true_eq] at h
  have hbits : d.bits.toNat = e.bits.toNat := by
    split_ifs at h <;> simp only [Int.negSucc.injEq, Int.ofNat.injEq] at h <;> omega
  cases d
  cases e
  exact congrArg mk (UInt64.toNat_inj.1 hbits)

instance : Std.TransOrd Double where
  eq_swap := Std.OrientedOrd.eq_swap (α := Int)
  isLE_trans := Std.TransOrd.isLE_trans (α := Int)

instance : Std.LawfulEqOrd Double where
  compare_self := Std.ReflOrd.compare_self (α := Int)
  eq_of_compare h := orderKey_inj (Std.LawfulEqOrd.eq_of_compare (α := Int) h)

end Double

namespace Value

/-! ### Values of different kinds -/

variable {a b c : Value}

lemma compare_of_rank_ne (h : a.rank ≠ b.rank) :
    a.compare b = Ord.compare a.rank b.rank := by
  cases a <;> cases b <;> first | rfl | exact absurd rfl h

lemma compareItems_eq (as bs : List Value) :
    compareItems as bs = List.compareLex Value.compare as bs := by
  induction as generalizing bs with
  | nil => cases bs <;> simp [compareItems, List.compareLex_nil_nil, List.compareLex_nil_cons]
  | cons a as ih =>
    cases bs with
    | nil => simp [compareItems, List.compareLex_cons_nil]
    | cons b bs => rw [compareItems, List.compareLex_cons_cons, ih]

/-- Entries are compared key before value. -/
def compareEntry (e f : Value × Value) : Ordering := (e.1.compare f.1).then (e.2.compare f.2)

lemma compareEntries_eq (es fs : List (Value × Value)) :
    compareEntries es fs = List.compareLex compareEntry es fs := by
  induction es generalizing fs with
  | nil => cases fs <;> simp [compareEntries, List.compareLex_nil_nil, List.compareLex_nil_cons]
  | cons e es ih =>
    cases fs with
    | nil => simp [compareEntries, List.compareLex_cons_nil]
    | cons f fs => rw [compareEntries, List.compareLex_cons_cons, ih]; rfl

lemma compare_list (as bs : List Value) :
    (list as).compare (list bs) = List.compareLex Value.compare as bs := by
  rw [Value.compare, compareItems_eq]

lemma compare_map (es fs : List (Value × Value)) :
    (map es).compare (map fs) = List.compareLex compareEntry es fs := by
  rw [Value.compare, compareEntries_eq]

/-! ### The laws -/

lemma compare_swap (a b : Value) : b.compare a = (a.compare b).swap := by
  induction a generalizing b with
  | list vs ih =>
    cases b with
    | list ws =>
      rw [compare_list, compare_list]
      exact compareLex_swap fun v hv w => ih v hv w
    | _ => rfl
  | map es ih =>
    cases b with
    | map fs =>
      rw [compare_map, compare_map]
      refine compareLex_swap fun e he f => ?_
      rw [compareEntry, (ih e he).1, (ih e he).2, ← Ordering.swap_then]
      rfl
    | _ => rfl
  | _ => cases b <;> first | rfl | exact Std.OrientedOrd.eq_swap

lemma compare_eq_eq {a b : Value} : a.compare b = .eq ↔ a = b := by
  induction a generalizing b with
  | list vs ih =>
    cases b with
    | list ws =>
      rw [compare_list, compareLex_eq_eq fun v hv w => ih v hv, list.injEq]
    | _ => simp [Value.compare, rank]
  | map es ih =>
    cases b with
    | map fs =>
      rw [compare_map, compareLex_eq_eq, map.injEq]
      intro e he f
      rw [compareEntry, Ordering.then_eq_eq, (ih e he).1, (ih e he).2, ← Prod.ext_iff]
    | _ => simp [Value.compare, rank]
  | _ => cases b <;> simp [Value.compare, rank]

lemma rank_le_of_lt {a b : Value} (h : a.compare b = .lt) : a.rank ≤ b.rank := by
  rcases Nat.lt_or_ge b.rank a.rank with hr | hr
  · rw [compare_of_rank_ne (by omega), Nat.compare_eq_lt] at h
    omega
  · exact hr

/-- Only values of one kind need a look at what they hold. -/
lemma lt_trans_of_same_rank {a : Value}
    (h : ∀ b c, a.rank = b.rank → a.rank = c.rank → a.compare b = .lt → b.compare c = .lt →
      a.compare c = .lt) (b c : Value) (hab : a.compare b = .lt) (hbc : b.compare c = .lt) :
    a.compare c = .lt := by
  have h1 := rank_le_of_lt hab
  have h2 := rank_le_of_lt hbc
  by_cases hr : a.rank = c.rank
  · exact h b c (by omega) hr hab hbc
  · rw [compare_of_rank_ne hr, Nat.compare_eq_lt]
    omega

lemma compare_lt_trans (a b c : Value) (hab : a.compare b = .lt) (hbc : b.compare c = .lt) :
    a.compare c = .lt := by
  revert b c
  induction a with
  | list vs ih =>
    refine lt_trans_of_same_rank fun b c hb hc hab hbc => ?_
    cases b <;> simp [rank] at hb
    cases c <;> simp [rank] at hc
    rw [compare_list] at hab hbc ⊢
    exact compareLex_lt_trans (fun _ _ => compare_eq_eq) (fun v hv => ih v hv) hab hbc
  | map es ih =>
    refine lt_trans_of_same_rank fun b c hb hc hab hbc => ?_
    cases b <;> simp [rank] at hb
    cases c <;> simp [rank] at hc
    rw [compare_map] at hab hbc ⊢
    refine compareLex_lt_trans (fun e f => ?_) (fun e he f g hef hfg => ?_) hab hbc
    · rw [compareEntry, Ordering.then_eq_eq, compare_eq_eq, compare_eq_eq, ← Prod.ext_iff]
    · simp only [compareEntry, Ordering.then_eq_lt, compare_eq_eq] at hef hfg ⊢
      rcases hef with hef | ⟨h1, hef⟩
      · rcases hfg with hfg | ⟨h2, hfg⟩
        · exact .inl ((ih e he).1 _ _ hef hfg)
        · exact .inl (h2 ▸ hef)
      · rcases hfg with hfg | ⟨h2, hfg⟩
        · exact .inl (h1 ▸ hfg)
        · exact .inr ⟨h1.trans h2, (ih e he).2 _ _ hef hfg⟩
  | _ =>
    refine lt_trans_of_same_rank fun b c hb hc hab hbc => ?_
    cases b <;> simp [rank] at hb
    all_goals cases c <;> simp [rank] at hc
    all_goals
      simp only [Value.compare] at hab hbc ⊢
      exact Std.TransCmp.lt_trans hab hbc

instance : Std.LawfulEqCmp Value.compare where
  compare_self := compare_eq_eq.2 rfl
  eq_of_compare := compare_eq_eq.1

instance : Std.TransCmp Value.compare where
  eq_swap := compare_swap _ _
  isLE_trans {a b c} hab hbc := by
    rw [Ordering.isLE_iff_eq_lt_or_eq_eq, compare_eq_eq] at hab hbc ⊢
    rcases hab with hab | rfl
    · rcases hbc with hbc | rfl
      · exact .inl (compare_lt_trans _ _ _ hab hbc)
      · exact .inl hab
    · exact hbc

instance : LawfulBEq Value where
  rfl {v} := by
    change (v.compare v == .eq) = true
    rw [compare_eq_eq.2 rfl]
    rfl
  eq_of_beq {v w} h := by
    change (v.compare w == .eq) = true at h
    exact compare_eq_eq.1 (beq_iff_eq.1 h)

lemma compare_float {d e : Double} : (float d).compare (float e) = .eq ↔ d.bits = e.bits := by
  rw [compare_eq_eq, float.injEq, Double.mk.injEq]

/--
The order is a total one, and two values have the same place in it just if they are the same, down
to the bits of every number.
-/
theorem compare_total (a b c : Value) :
    b.compare a = (a.compare b).swap ∧
      ((a.compare b).isLE → (b.compare c).isLE → (a.compare c).isLE) ∧
      (a.compare b = .eq ↔ a = b) ∧ ((a == b) = true ↔ a = b) ∧
      ∀ d e : Double, (float d).compare (float e) = .eq ↔ d.bits = e.bits :=
  ⟨compare_swap a b, Std.TransCmp.isLE_trans, compare_eq_eq, beq_iff_eq, fun _ _ => compare_float⟩

/-- The sign of a zero decides before the lengths of the lists do, and maps come after lists. -/
theorem compare_total_signed_zeros :
    ((list [float ⟨0x8000000000000000⟩, int 9]).compare (list [float ⟨0⟩])).isLE ∧
      ((list [float ⟨0⟩]).compare (map [])).isLE ∧
      ((list [float ⟨0x8000000000000000⟩, int 9]).compare (map [])).isLE := by
  have hzeros : ((list [float ⟨0x8000000000000000⟩, int 9]).compare (list [float ⟨0⟩])).isLE := by
    decide
  have hkinds : ((list [float ⟨0⟩]).compare (map [])).isLE := by decide
  exact ⟨hzeros, hkinds, (compare_total _ _ _).2.1 hzeros hkinds⟩

end Value

/-! ### Ascending keys -/

namespace Assoc

variable {α β : Type} {cmp : α → α → Ordering} {es : List (α × β)}

/--
The entries below a key and those above it stay as they are when it is set; an entry with the key
itself, which is the one that a search finds, gives way to the new one.
-/
lemma insert_cases (cmp : α → α → Ordering) [Std.LawfulEqCmp cmp] (k : α) (v : β)
    (es : List (α × β)) : ∃ below above, insert cmp k v es = below ++ (k, v) :: above ∧
      (es = below ++ above ∧ find? cmp k es = none ∨
        ∃ old, es = below ++ (k, old) :: above ∧ find? cmp k es = some old) := by
  induction es with
  | nil => exact ⟨[], [], rfl, .inl ⟨rfl, rfl⟩⟩
  | cons e es ih =>
    obtain ⟨j, u⟩ := e
    rw [insert, find?]
    cases hc : cmp k j with
    | lt => exact ⟨[], (j, u) :: es, rfl, .inl ⟨rfl, rfl⟩⟩
    | eq =>
      obtain rfl := Std.LawfulEqCmp.eq_of_compare hc
      exact ⟨[], es, rfl, .inr ⟨u, rfl, rfl⟩⟩
    | gt =>
      obtain ⟨below, above, hins, h⟩ := ih
      refine ⟨(j, u) :: below, above, congrArg _ hins, ?_⟩
      rcases h with ⟨rfl, hnone⟩ | ⟨old, rfl, hsome⟩
      · exact .inl ⟨rfl, hnone⟩
      · exact .inr ⟨old, rfl, hsome⟩

lemma mem_insert [Std.LawfulEqCmp cmp] {k : α} {v : β} {e : α × β}
    (h : e ∈ insert cmp k v es) : e = (k, v) ∨ e ∈ es := by
  obtain ⟨below, above, hins, hes⟩ := insert_cases cmp k v es
  rw [hins, List.mem_append, List.mem_cons] at h
  rcases hes with ⟨rfl, -⟩ | ⟨old, rfl, -⟩
  · rcases h with h | h | h <;> simp [h]
  · rcases h with h | h | h <;> simp [h]

lemma length_insert (cmp : α → α → Ordering) [Std.LawfulEqCmp cmp] (k : α) (v : β)
    (es : List (α × β)) :
    (insert cmp k v es).length = es.length + if (find? cmp k es).isSome then 0 else 1 := by
  obtain ⟨below, above, hins, ⟨hes, hfind⟩ | ⟨old, hes, hfind⟩⟩ := insert_cases cmp k v es
  · rw [hins, hfind, hes]
    simp [Nat.add_assoc]
  · rw [hins, hfind, hes]
    simp

lemma length_insert_le (cmp : α → α → Ordering) [Std.LawfulEqCmp cmp] (k : α) (v : β)
    (es : List (α × β)) : (insert cmp k v es).length ≤ es.length + 1 := by
  rw [length_insert]
  split <;> omega

lemma ascends_insert [Std.TransCmp cmp] [Std.LawfulEqCmp cmp] (k : α) (v : β)
    (h : Ascends cmp es) : Ascends cmp (insert cmp k v es) := by
  induction es with
  | nil => exact List.pairwise_singleton _ _
  | cons e es ih =>
    obtain ⟨he, hes⟩ := List.pairwise_cons.1 h
    rw [insert]
    split
    · refine List.Pairwise.cons (fun f hf => ?_) h
      rcases List.mem_cons.1 hf with rfl | hf
      · assumption
      · exact Std.TransCmp.lt_trans ‹_› (he f hf)
    · exact List.Pairwise.cons he hes
    · refine List.Pairwise.cons (fun f hf => ?_) (ih hes)
      rcases mem_insert hf with rfl | hf
      · exact Std.OrientedCmp.gt_iff_lt.1 ‹_›
      · exact he f hf

lemma insert_of_below {k : α} {v : β} (h : ∀ e ∈ es, cmp k e.1 = .lt) :
    insert cmp k v es = (k, v) :: es := by
  cases es with
  | nil => rfl
  | cons e es => rw [insert, h e List.mem_cons_self]

lemma find?_of_below {k : α} (h : ∀ e ∈ es, cmp k e.1 = .lt) : find? cmp k es = none := by
  cases es with
  | nil => rfl
  | cons e es => rw [find?, h e List.mem_cons_self]

end Assoc

namespace ValueMap

lemma ascends_foldl (es : List (Value × Value)) (m : ValueMap)
    (hm : Assoc.Ascends Value.compare m.entries) :
    Assoc.Ascends Value.compare (es.foldl (fun m e => m.insert e.1 e.2) m).entries := by
  induction es generalizing m with
  | nil => exact hm
  | cons e es ih => exact ih _ (Assoc.ascends_insert _ _ hm)

lemma ascends_ofList (es : List (Value × Value)) :
    Assoc.Ascends Value.compare (ofList es).entries :=
  ascends_foldl es empty List.Pairwise.nil

lemma mem_foldl (es : List (Value × Value)) (m : ValueMap) {e : Value × Value}
    (h : e ∈ (es.foldl (fun m e => m.insert e.1 e.2) m).entries) : e ∈ es ∨ e ∈ m.entries := by
  induction es generalizing m with
  | nil => exact .inr h
  | cons f es ih =>
    rcases ih _ h with h | h
    · exact .inl (List.mem_cons_of_mem _ h)
    · exact (Assoc.mem_insert h).imp (by rintro rfl; exact List.mem_cons_self) id

lemma mem_of_mem_ofList {es : List (Value × Value)} {e : Value × Value}
    (h : e ∈ (ofList es).entries) : e ∈ es :=
  (mem_foldl es empty h).resolve_right List.not_mem_nil

end ValueMap

namespace Value

/-- Every map in the value was built by insertions. -/
inductive Built : Value → Prop
  | nil : Built nil
  | bool (b : Bool) : Built (bool b)
  | int (n : Int64) : Built (int n)
  | float (d : Double) : Built (float d)
  | string (s : String) : Built (string s)
  | blob (bytes : Bytes) : Built (blob bytes)
  | geo (json : String) : Built (geo json)
  | list (vs : List Value) (h : ∀ v ∈ vs, Built v) : Built (list vs)
  | map (es : List (Value × Value)) (h1 : ∀ e ∈ es, Built e.1) (h2 : ∀ e ∈ es, Built e.2) :
      Built (ValueMap.ofList es).toValue

lemma Built.ordered {v : Value} (h : v.Built) : v.Ordered := by
  induction h with
  | list vs _ ih => exact all_list.2 ⟨trivial, ih⟩
  | map es _ _ ih1 ih2 =>
    refine all_map.2 ⟨ValueMap.ascends_ofList es, fun e he => ?_⟩
    have he := ValueMap.mem_of_mem_ofList he
    exact ⟨ih1 e he, ih2 e he⟩
  | _ => simp [Ordered, All, KeysAscend]

end Value

end NestedPath
