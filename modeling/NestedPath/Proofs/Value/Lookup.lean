import Mathlib.Data.List.Induction
import Mathlib.Data.List.Sort
import NestedPath.Proofs.Value.Order

/-!
What a map built by insertions holds: for each key the value that was given last, and no two entries
for one key.

A search passes the entries below its key only, so all of this rests on the entries being in order.
-/

namespace NestedPath

/-! ### Sorted association lists -/

namespace Assoc

variable {α β : Type} {cmp : α → α → Ordering} [Std.LawfulEqCmp cmp]
variable {es fs : List (α × β)} {k l : α} {v w : β}

lemma mem_insert_iff (hl : l ≠ k) : (l, w) ∈ insert cmp k v es ↔ (l, w) ∈ es := by
  obtain ⟨below, above, hins, ⟨hes, -⟩ | ⟨old, hes, -⟩⟩ := insert_cases cmp k v es
  · rw [hins, hes]
    simp [hl]
  · rw [hins, hes]
    simp [hl]

lemma mem_insert_self : (k, v) ∈ insert cmp k v es := by
  obtain ⟨below, above, hins, -⟩ := insert_cases cmp k v es
  rw [hins]
  exact List.mem_append_right _ List.mem_cons_self

lemma not_lt_self : ¬ cmp k k = .lt := by
  have h : cmp k k = .eq := Std.ReflCmp.compare_self
  rw [h]
  nofun

/-- No two entries in ascending order have one key. -/
lemma nodup_keys (h : Ascends cmp es) : (es.map Prod.fst).Nodup := by
  refine List.pairwise_map.2 (h.imp fun {e f} hlt heq => ?_)
  rw [heq] at hlt
  exact not_lt_self hlt

lemma insert_perm (h : find? cmp k es = none) : (insert cmp k v es).Perm ((k, v) :: es) := by
  obtain ⟨below, above, hins, ⟨rfl, -⟩ | ⟨old, -, hold⟩⟩ := insert_cases cmp k v es
  · rw [hins]
    exact List.perm_middle
  · cases h.symm.trans hold

lemma append_insert_perm (h : find? cmp k es = none) :
    (fs ++ insert cmp k v es).Perm ((k, v) :: (fs ++ es)) :=
  ((insert_perm h).append_left fs).trans List.perm_middle

section

variable [Std.TransCmp cmp]

/-- In ascending entries a search finds whatever there is. -/
lemma find?_eq_some (h : Ascends cmp es) : find? cmp k es = some v ↔ (k, v) ∈ es := by
  induction es with
  | nil => simp [find?]
  | cons e es ih =>
    obtain ⟨j, u⟩ := e
    obtain ⟨habove, hes⟩ := List.pairwise_cons.1 h
    rw [find?, List.mem_cons, Prod.mk.injEq]
    cases hc : cmp k j with
    | lt =>
      -- The keys above are further up.
      have hne : k ≠ j := fun hk => not_lt_self (hk ▸ hc)
      have hnot : (k, v) ∉ es := fun hmem =>
        not_lt_self (Std.TransCmp.lt_trans hc (habove _ hmem))
      simp [hne, hnot]
    | eq =>
      obtain rfl := Std.LawfulEqCmp.eq_of_compare hc
      have hnot : (k, v) ∉ es := fun hmem => not_lt_self (habove (k, v) hmem)
      simp [hnot, eq_comm]
    | gt =>
      have hne : k ≠ j := fun hk => not_lt_self (hk ▸ Std.OrientedCmp.gt_iff_lt.1 hc)
      simp [hne, ih hes]

lemma find?_insert_self (h : Ascends cmp es) : find? cmp k (insert cmp k v es) = some v :=
  (find?_eq_some (ascends_insert k v h)).2 mem_insert_self

lemma find?_insert_of_ne (h : Ascends cmp es) (hl : l ≠ k) :
    find? cmp l (insert cmp k v es) = find? cmp l es := by
  apply Option.ext
  intro w
  rw [find?_eq_some (ascends_insert k v h), find?_eq_some h, mem_insert_iff hl]

lemma eq_of_mem_iff (hes : Ascends cmp es) (hfs : Ascends cmp fs) (h : ∀ e, e ∈ es ↔ e ∈ fs) :
    es = fs := by
  have hirrefl : Std.Irrefl fun a b : α × β => cmp a.1 b.1 = .lt := ⟨fun a => not_lt_self⟩
  have hanti : Std.Antisymm fun a b : α × β => cmp a.1 b.1 = .lt :=
    ⟨fun a b hab hba => absurd (Std.TransCmp.lt_trans hab hba) not_lt_self⟩
  exact List.Pairwise.eq_of_mem_iff hes hfs h

lemma eq_of_find?_eq (hes : Ascends cmp es) (hfs : Ascends cmp fs)
    (h : ∀ k, find? cmp k es = find? cmp k fs) : es = fs := by
  refine eq_of_mem_iff hes hfs fun e => ?_
  rw [← find?_eq_some hes, ← find?_eq_some hfs, h]

/-- A search fails for want of an entry with the key. -/
lemma find?_eq_none (h : Ascends cmp es) : find? cmp k es = none ↔ k ∉ es.map Prod.fst := by
  rw [Option.eq_none_iff_forall_ne_some]
  simp [find?_eq_some h]

end

end Assoc

/-! ### Maps -/

namespace ValueMap

/-- The value of the last of these entries that has the key. -/
def lastValue? (k : Value) (es : List (Value × Value)) : Option Value :=
  (es.reverse.find? fun e => e.1 == k).map Prod.snd

variable {es fs : List (Value × Value)} {k : Value} {m : ValueMap}

lemma lastValue?_concat (k : Value) (es : List (Value × Value)) (e : Value × Value) :
    lastValue? k (es ++ [e]) = if e.1 == k then some e.2 else lastValue? k es := by
  rw [lastValue?, List.reverse_append, List.reverse_singleton, List.singleton_append,
    List.find?_cons]
  split <;> simp_all [lastValue?]

lemma isSome_lastValue? (k : Value) (es : List (Value × Value)) :
    (lastValue? k es).isSome = (es.map Prod.fst).contains k := by
  rw [Bool.eq_iff_iff]
  simp [lastValue?, List.find?_isSome]

/-- One more element counts unless it was there before. -/
lemma length_eraseDups_concat {α : Type} [BEq α] [LawfulBEq α] (as : List α) (a : α) :
    (as ++ [a]).eraseDups.length = as.eraseDups.length + if as.contains a then 0 else 1 := by
  rw [List.eraseDups_append, List.length_append, List.removeAll, List.filter_singleton,
    ← List.contains]
  cases as.contains a with
  | true => rfl
  | false => simp [List.eraseDups_cons]

/-! ### One more insertion -/

lemma ofList_concat (es : List (Value × Value)) (e : Value × Value) :
    ofList (es ++ [e]) = (ofList es).insert e.1 e.2 :=
  List.foldl_append

lemma get?_insert (hm : Assoc.Ascends Value.compare m.entries) (k l v : Value) :
    (m.insert k v).get? l = if k == l then some v else m.get? l := by
  split
  · rename_i hk
    obtain rfl := eq_of_beq hk
    exact Assoc.find?_insert_self hm
  · rename_i hk
    have hl : l ≠ k := fun hl => hk (hl ▸ beq_self_eq_true k)
    exact Assoc.find?_insert_of_ne hm hl

lemma size_insert (m : ValueMap) (k v : Value) :
    (m.insert k v).size = m.size + if (m.get? k).isSome then 0 else 1 :=
  Assoc.length_insert Value.compare k v m.entries

/-! ### Any number of insertions -/

lemma get?_ofList (k : Value) (es : List (Value × Value)) :
    (ofList es).get? k = lastValue? k es := by
  induction es using List.reverseRecOn with
  | nil => rfl
  | append_singleton es e ih =>
    rw [ofList_concat, get?_insert (ascends_ofList es), lastValue?_concat, ih]

lemma size_ofList (es : List (Value × Value)) :
    (ofList es).size = (es.map Prod.fst).eraseDups.length := by
  induction es using List.reverseRecOn with
  | nil => rfl
  | append_singleton es e ih =>
    rw [ofList_concat, size_insert, ih, get?_ofList, isSome_lastValue?, List.map_append,
      List.map_singleton, length_eraseDups_concat]

lemma mem_entries_ofList {v : Value} : (k, v) ∈ (ofList es).entries ↔ lastValue? k es = some v := by
  rw [← get?_ofList]
  exact (Assoc.find?_eq_some (ascends_ofList es)).symm

/-- Two runs of insertions build the same map just if each key has the same last value in both. -/
lemma ofList_eq_iff : ofList es = ofList fs ↔ ∀ k, lastValue? k es = lastValue? k fs := by
  constructor
  · intro h k
    rw [← get?_ofList, ← get?_ofList, h]
  · intro h
    refine congrArg mk (Assoc.eq_of_find?_eq (ascends_ofList es) (ascends_ofList fs) fun k => ?_)
    have hk : (ofList es).get? k = (ofList fs).get? k := by rw [get?_ofList, get?_ofList, h]
    exact hk

/--
A map stays in ascending order of keys however it is built by insertions; under a key it holds the
value of the last one that had the key, and it has as many entries as there were different keys.
-/
theorem ofList_faithful (es : List (Value × Value)) :
    Assoc.Ascends Value.compare (ofList es).entries ∧
      (∀ k, (ofList es).get? k = lastValue? k es) ∧
      (ofList es).size = (es.map Prod.fst).eraseDups.length :=
  ⟨ascends_ofList es, fun k => get?_ofList k es, size_ofList es⟩

end ValueMap

end NestedPath
