import NestedPath.Proofs.Elements
import NestedPath.Wire.Writer

/-!
What bytes under construction still wait for.

Between two writes the bytes are whole objects and, behind them, perhaps lists and maps one within
the other that have fewer objects than they count. A writer keeps the numbers of the objects that
are missing. They can be told from the bytes alone, and each write keeps the two in step.
-/

namespace NestedPath

open Reader

/-! ### Runs of objects -/

namespace Reader

variable {n : Nat} {hd o rest s t : Bytes} {os os' : List Bytes}

/-- Where the shorter of two runs of objects ends, the longer one goes on with an object. -/
lemma exists_object_of_lt (ho : ∀ o ∈ os, IsObject o) (ho' : ∀ o ∈ os', IsObject o)
    (hlt : os'.length < os.length) (e : os.flatten ++ s = os'.flatten ++ t) :
    ∃ o rest, IsObject o ∧ o ++ rest = t := by
  obtain ⟨o, more, hsplit⟩ : ∃ o more, os = os.take os'.length ++ o :: more :=
    ⟨os[os'.length], os.drop (os'.length + 1), by
      rw [← List.drop_eq_getElem_cons hlt, List.take_append_drop]⟩
  have hfront : (os.take os'.length).length = os'.length :=
    List.length_take_of_le (Nat.le_of_lt hlt)
  generalize os.take os'.length = front at hsplit hfront
  subst hsplit
  obtain ⟨hos, hmore⟩ := List.forall_mem_append.1 ho
  rw [List.flatten_append, List.flatten_cons, List.append_assoc, List.append_assoc] at e
  exact ⟨o, _, hmore o List.mem_cons_self, (flatten_append_inj hos ho' hfront e).2⟩

lemma exists_objects_of_nests {ds : List Nat} {bs : Bytes} (h : Nests ds bs) :
    ∃ os : List Bytes, os.length = ds.length ∧ (∀ o ∈ os, IsObject o) ∧ os.flatten = bs := by
  induction h with
  | nil => exact ⟨[], rfl, by simp, rfl⟩
  | @cons hd body bs cs inner ds hhead hinner _ _ ih =>
    obtain ⟨os, hlen, hos, rfl⟩ := ih
    have ho : IsObject (hd ++ (body ++ (bs ++ []))) := isObject_iff.2 ⟨_, .cons hhead hinner .nil⟩
    rw [List.append_nil] at ho
    exact ⟨(hd ++ (body ++ bs)) :: os, congrArg Nat.succ hlen,
      List.forall_mem_cons.2 ⟨ho, hos⟩, by simp⟩

/-- Behind a header that objects belong to, an object holds as many as that. -/
lemma IsObject.exists_objects (ho : IsObject o) (h : Reads (head "") hd (0, n))
    (e : o ++ s = hd ++ rest) :
    ∃ os : List Bytes, os.length = n ∧ (∀ o ∈ os, IsObject o) ∧ os.flatten ++ s = rest := by
  obtain ⟨d, hd⟩ := isObject_iff.1 ho
  cases hd with
  | @cons hd' body bs cs inner ds hhead hinner hrest =>
    cases hrest
    obtain ⟨os, hlen, hos, rfl⟩ := exists_objects_of_nests hinner
    simp only [List.append_assoc, List.nil_append] at e
    obtain ⟨hx, e⟩ := hhead.append_inj h e
    obtain ⟨hbody, hn⟩ := Prod.mk.inj hx
    obtain rfl := List.length_eq_zero_iff.1 hbody
    exact ⟨os, hlen.trans hn, hos, e⟩

end Reader

/-! ### What is missing -/

/--
The bytes are `n` objects with, perhaps, a list or map behind them that is not complete. The list
`missing` says, innermost first, how many objects the incomplete lists and maps still wait for.
-/
inductive Awaits : Nat → List Nat → Bytes → Prop
  | whole {os : List Bytes} (ho : ∀ o ∈ os, IsObject o) : Awaits os.length [] os.flatten
  /-- Behind a header that counts `n` objects stand `m` of them and, perhaps, a part of the next. -/
  | inside {os : List Bytes} {hd rest : Bytes} {m n : Nat} {missing : List Nat}
      (ho : ∀ o ∈ os, IsObject o) (hhead : Reads (head "") hd (0, n))
      (hrest : Awaits m missing rest) (hlt : m < n) :
      Awaits os.length (missing ++ [n - m]) (os.flatten ++ (hd ++ rest))

namespace Awaits

variable {m n : Nat} {missing missing' : List Nat} {bs hd o s : Bytes} {os : List Bytes}

lemma empty : Awaits 0 [] [] := whole fun o (h : o ∈ []) => absurd h List.not_mem_nil

lemma missing_pos (h : Awaits n missing bs) : ∀ k ∈ missing, 1 ≤ k := by
  induction h with
  | whole => simp
  | inside _ _ _ hlt ih =>
    intro k hk
    rcases List.mem_append.1 hk with hk | hk
    · exact ih k hk
    · rw [List.mem_singleton.1 hk]
      omega

lemma exists_objects (h : Awaits n missing bs) :
    ∃ (os : List Bytes) (t : Bytes),
      os.length = n ∧ (∀ o ∈ os, IsObject o) ∧ os.flatten ++ t = bs := by
  cases h with
  | whole ho => exact ⟨_, [], rfl, ho, List.append_nil _⟩
  | inside ho => exact ⟨_, _, rfl, ho, rfl⟩

/-- The bytes begin with no more objects than are counted. -/
lemma length_le (h : Awaits n missing bs) (ho : ∀ o ∈ os, IsObject o) (e : os.flatten ++ s = bs) :
    os.length ≤ n := by
  -- An object more would start where nothing is left, or where the header of the open list or map
  -- stands, which has too few objects behind it.
  induction h generalizing os s with
  | @whole os' ho' =>
    refine Nat.not_lt.1 fun hlt => ?_
    rw [← List.append_nil os'.flatten] at e
    obtain ⟨o, rest, hobj, hnil⟩ := exists_object_of_lt ho ho' hlt e
    exact hobj.ne_nil (List.append_eq_nil_iff.1 hnil).1
  | @inside os' hd rest m n missing ho' hhead _ hlt ih =>
    refine Nat.not_lt.1 fun hmore => ?_
    obtain ⟨o, t, hobj, hot⟩ := exists_object_of_lt ho ho' hmore e
    obtain ⟨inner, hlen, hinner, hit⟩ := hobj.exists_objects hhead hot
    have := ih hinner hit
    omega

lemma count_eq (h : Awaits n missing bs) (h' : Awaits m missing' bs) : n = m := by
  obtain ⟨os, t, rfl, ho, e⟩ := h.exists_objects
  obtain ⟨os', t', rfl, ho', e'⟩ := h'.exists_objects
  exact Nat.le_antisymm (h'.length_le ho e) (h.length_le ho' e')

/-- A header behind as many objects as the bytes hold would be more than the bytes hold. -/
lemma flatten_ne_append {os' : List Bytes} {x : Nat × Nat} (ho : ∀ o ∈ os, IsObject o)
    (ho' : ∀ o ∈ os', IsObject o) (hlen : os.length = os'.length) (hhead : Reads (head "") hd x) :
    os.flatten ≠ os'.flatten ++ (hd ++ s) := by
  intro e
  rw [← List.append_nil os.flatten] at e
  obtain ⟨-, hnil⟩ := flatten_append_inj ho ho' hlen e
  exact ne_nil_of_reads_head hhead (List.append_eq_nil_iff.1 hnil.symm).1

lemma missing_eq (h : Awaits n missing bs) (h' : Awaits m missing' bs) : missing = missing' := by
  obtain rfl := h.count_eq h'
  induction h generalizing missing' with
  | @whole os ho =>
    generalize hbs : os.flatten = bs at h'
    generalize hlen : os.length = n at h'
    cases h' with
    | whole => rfl
    | inside ho' hhead _ _ => exact absurd hbs (flatten_ne_append ho ho' hlen hhead)
  | @inside os hd rest m n missing ho hhead hrest _ ih =>
    generalize hbs : os.flatten ++ (hd ++ rest) = bs at h'
    generalize hlen : os.length = k at h'
    cases h' with
    | whole ho' => exact absurd hbs.symm (flatten_ne_append ho' ho hlen.symm hhead)
    | inside ho' hhead' hrest' _ =>
      obtain ⟨-, e⟩ := flatten_append_inj ho ho' hlen hbs
      obtain ⟨hx, rfl⟩ := hhead.append_inj hhead' e
      obtain rfl := (Prod.mk.inj hx).2
      obtain rfl := hrest.count_eq hrest'
      rw [ih hrest']

lemma exists_flatten (h : Awaits n [] bs) :
    ∃ os : List Bytes, os.length = n ∧ (∀ o ∈ os, IsObject o) ∧ os.flatten = bs := by
  generalize hm : [] = missing at h
  cases h with
  | whole ho => exact ⟨_, rfl, ho, rfl⟩
  | inside => simp at hm

/-! ### One more object, one more header -/

lemma completeOne_concat (missing : List Nat) (k : Nat) : completeOne (missing ++ [k]) =
    if completeOne missing = [] then completeOne [k] else completeOne missing ++ [k] := by
  induction missing with
  | nil => rfl
  | cons n missing ih =>
    rw [List.cons_append, completeOne, completeOne]
    split
    · exact ih
    · rfl

lemma whole_concat (ho : ∀ o ∈ os, IsObject o) (hobj : IsObject o) :
    Awaits (os.length + 1) [] (os.flatten ++ o) := by
  have hos : ∀ o' ∈ os ++ [o], IsObject o' :=
    List.forall_mem_append.2 ⟨ho, List.forall_mem_singleton.2 hobj⟩
  have h := whole hos
  rwa [List.length_append, List.flatten_append, List.flatten_singleton] at h

/-- An object behind the bytes is the next one of the innermost list or map that is open. -/
lemma object (h : Awaits n missing bs) (hobj : IsObject o) :
    Awaits (if completeOne missing = [] then n + 1 else n) (completeOne missing) (bs ++ o) := by
  induction h with
  | whole ho => exact whole_concat ho hobj
  | @inside os hd rest m n missing ho hhead hrest hlt ih =>
    rw [completeOne_concat, List.append_assoc, List.append_assoc]
    by_cases hopen : completeOne missing = []
    · simp only [if_pos hopen] at ih ⊢
      rw [hopen] at ih
      by_cases hlast : n - m ≤ 1
      · -- The list or map is complete, and with it an object of the next one out.
        have hone : completeOne [n - m] = [] := if_pos hlast
        obtain ⟨inner, hlen, hinner, hflat⟩ := ih.exists_flatten
        have hn : n = inner.length := by omega
        rw [hn] at hhead
        have hnode := isObject_of_reads_head hhead hinner
        rw [hflat] at hnode
        rw [hone, if_pos rfl]
        exact whole_concat ho hnode
      · have hone : completeOne [n - m] = [n - (m + 1)] := if_neg hlast
        rw [hone, if_neg (List.cons_ne_nil _ _)]
        exact inside ho hhead ih (by omega)
    · simp only [if_neg hopen] at ih ⊢
      rw [if_neg (by simp)]
      exact inside ho hhead ih hlt

/-- A header that objects belong to opens a list or map inside all others. -/
lemma header (h : Awaits n missing bs) (hhead : Reads (head "") hd (0, m)) (hm : 0 < m) :
    Awaits n (m :: missing) (bs ++ hd) := by
  induction h with
  | whole ho =>
    have h := inside ho hhead empty hm
    rwa [List.append_nil] at h
  | inside ho hhead' _ hlt ih =>
    rw [List.append_assoc, List.append_assoc]
    exact inside ho hhead' ih hlt

end Awaits

/-! ### Writers -/

namespace Item

/--
The item can be written: its size or count has a numeral of four bytes, and if it was packed before,
it is one object.
-/
def Writable : Item → Prop
  | packed bs => IsObject bs
  | i => i.Sized

variable {i : Item} {n : Nat} {missing : List Nat} {bs : Bytes}

lemma Writable.isObject (h : i.Writable) (hc : i.children = 0) : IsObject i.bytes := by
  have hone {i : Item} (hs : i.Sized) (hl : i.Leaf) : IsObject i.bytes :=
    isObject_iff.2 ⟨0, Item.nests hs hl⟩
  cases i with
  | packed bs => exact h
  | array n => exact hone h hc
  | map n =>
    have hn : 2 * n = 0 := hc
    exact hone h (show n = 0 by omega)
  | text s => exact hone h trivial
  | particle type body => exact hone h trivial
  | _ => exact hone trivial trivial

lemma Writable.reads_head (h : i.Writable) (hc : 0 < i.children) :
    Reads (head "") i.bytes (0, i.children) := by
  cases i with
  | array n => exact Nests.reads_head_array (lead_array h)
  | map n => exact Nests.reads_head_map (lead_map h)
  | _ => exact absurd hc (Nat.lt_irrefl 0)

/-- One write keeps the numbers that are kept in step with the bytes. -/
lemma awaits_settle (hi : i.Writable) (h : Awaits n missing bs) :
    ∃ m, Awaits m (settle missing i) (bs ++ i.bytes) := by
  unfold settle
  split
  · exact ⟨_, h.object (hi.isObject ‹_›)⟩
  · have hpos : 0 < i.children := Nat.pos_of_ne_zero ‹_›
    exact ⟨_, h.header (hi.reads_head hpos) hpos⟩

/-- And so does any number of them. -/
lemma awaits_foldl_settle {is : List Item} (his : ∀ i ∈ is, i.Writable)
    (h : Awaits n missing bs) : ∃ m, Awaits m (is.foldl settle missing) (bs ++ pack is) := by
  induction is generalizing n missing bs with
  | nil =>
    rw [pack_nil, List.append_nil]
    exact ⟨n, h⟩
  | cons i is ih =>
    obtain ⟨hi, his⟩ := List.forall_mem_cons.1 his
    obtain ⟨m, hm⟩ := awaits_settle hi h
    rw [pack_cons, ← List.append_assoc]
    exact ih his hm

end Item

namespace Writer

variable {is : List Item} {w : Writer}

lemma awaits_write (h : ∀ i ∈ is, i.Writable) :
    ∃ n, Awaits n (empty.write is).pending (empty.write is).bytes :=
  Item.awaits_foldl_settle h .empty

lemma finish_eq_ok : w.finish = .ok w.bytes ↔ w.pending = [] := by
  rw [← List.isEmpty_iff, finish]
  split <;> simp_all

/--
Whatever is written, no number that a writer keeps is zero, so one may always be taken off; the
numbers are those of the objects that the incomplete lists and maps in the bytes wait for; and none
are kept, so that the writer finishes, just if the bytes are whole objects.
-/
theorem pending_tracks_bytes (h : ∀ i ∈ is, i.Writable) :
    (∀ k ∈ (empty.write is).pending, 1 ≤ k) ∧
      (∀ missing, (∃ n, Awaits n missing (empty.write is).bytes) ↔
        missing = (empty.write is).pending) ∧
      ((empty.write is).pending = [] ↔
        ∃ os : List Bytes, (∀ o ∈ os, IsObject o) ∧ os.flatten = (empty.write is).bytes) ∧
      ((empty.write is).finish = .ok (empty.write is).bytes ↔ (empty.write is).pending = []) := by
  obtain ⟨n, hn⟩ := awaits_write h
  refine ⟨hn.missing_pos, fun missing => ⟨?_, ?_⟩, ⟨?_, ?_⟩, finish_eq_ok⟩
  · rintro ⟨m, hm⟩
    exact hm.missing_eq hn
  · rintro rfl
    exact ⟨n, hn⟩
  · intro hp
    rw [hp] at hn
    obtain ⟨os, -, ho, hflat⟩ := hn.exists_flatten
    exact ⟨os, ho, hflat⟩
  · rintro ⟨os, ho, hflat⟩
    rw [← hflat] at hn
    exact hn.missing_eq (.whole ho)

/-- A list whose second element is a map without the value of its key. -/
theorem pending_tracks_bytes_open_map :
    (empty.write [.array 2, .array 0, .map 1, .packed [0x91, 0xc0]]).pending = [1, 1] ∧
      (∃ n, Awaits n [1, 1] [0x92, 0x90, 0x81, 0x91, 0xc0]) ∧
      ¬ ∃ os : List Bytes, (∀ o ∈ os, IsObject o) ∧
        os.flatten = [0x92, 0x90, 0x81, 0x91, 0xc0] := by
  have h : ∀ i ∈ [.array 2, .array 0, .map 1, .packed [0x91, 0xc0]], Item.Writable i := by
    simp [Item.Writable, Item.Sized]
    decide
  obtain ⟨-, hmissing, hwhole, -⟩ := pending_tracks_bytes h
  exact ⟨rfl, (hmissing [1, 1]).2 rfl, fun ho => List.cons_ne_nil _ _ (hwhole.2 ho)⟩

end Writer

end NestedPath
