import Mathlib.Logic.Function.Iterate
import NestedPath.Proofs.Expr.Injective

/-!
What a run of items leaves open in a writer.

A value, a path or an expression counts as one object of the list or map it is written into, however
many lists and maps it opens on the way.
-/

namespace NestedPath

namespace Item

/-- Written into any lists and maps that are open, the items count as `n` objects. -/
def Completes (n : Nat) (items : List Item) : Prop :=
  ∀ pending, items.foldl settle pending = completeOne^[n] pending

variable {m n : Nat} {i : Item} {is js : List Item}

/-- The last object of a list or map counts as one object of the next one out. -/
lemma iterate_completeOne (n : Nat) (pending : List Nat) :
    completeOne^[n + 1] ((n + 1) :: pending) = completeOne pending := by
  induction n with
  | zero => rfl
  | succ n ih =>
    rw [Function.iterate_succ_apply]
    exact ih

/-- Before its last object a list or map stays open, whatever is open around it. -/
lemma iterate_completeOne_of_lt (h : m < n) (outer : List Nat) :
    completeOne^[m] (n :: outer) = (n - m) :: outer := by
  induction m generalizing n with
  | zero => rfl
  | succ m ih =>
    have hone : completeOne (n :: outer) = (n - 1) :: outer := if_neg (by omega)
    rw [Function.iterate_succ_apply, hone, ih (by omega), Nat.sub_sub, Nat.add_comm]

namespace Completes

lemma nil : Completes 0 [] := fun _ => rfl

/-- An item that no objects belong to counts as one. -/
lemma leaf (hi : i.children = 0) (h : Completes n is) : Completes (n + 1) (i :: is) := by
  intro pending
  rw [List.foldl_cons, h, settle, if_pos hi, Function.iterate_succ_apply]

/-- So does an item together with the objects that belong to it. -/
lemma node (h : Completes i.children is) : Completes 1 (i :: is) := by
  intro pending
  rw [List.foldl_cons, h, settle]
  cases hn : i.children with
  | zero => rfl
  | succ n => exact iterate_completeOne n pending

lemma append (hi : Completes m is) (hj : Completes n js) : Completes (m + n) (is ++ js) := by
  intro pending
  rw [List.foldl_append, hi, hj, Nat.add_comm, Function.iterate_add_apply]

lemma flatMap {α : Type} {code : α → List Item} {as : List α}
    (h : ∀ a ∈ as, Completes n (code a)) : Completes (n * as.length) (as.flatMap code) := by
  induction as with
  | nil => exact nil
  | cons a as ih =>
    have hrest := ih fun b hb => h b (List.mem_cons_of_mem a hb)
    rw [List.flatMap_cons, List.length_cons, Nat.mul_succ, Nat.add_comm]
    exact (h a List.mem_cons_self).append hrest

end Completes

end Item

open Item

/-! ### Values and paths -/

lemma Value.completes_items (v : Value) : Completes 1 v.items := by
  induction v with
  | list vs ih =>
    have hvs := Completes.flatMap ih
    rw [Nat.one_mul] at hvs
    rw [items]
    exact .node hvs
  | map es ih =>
    have hes := Completes.flatMap fun e he => (ih e he).1.append (ih e he).2
    rw [items]
    exact .node (.leaf rfl (.leaf rfl hes))
  | _ =>
    rw [items]
    exact .leaf rfl .nil

namespace Segment

lemma Payload.completes_items (payload : Payload) : Completes 1 payload.items := by
  cases payload with
  | literal v => exact v.completes_items
  | filter p => exact .leaf rfl .nil

lemma completes_items (flag : UInt32) (s : Segment) : Completes 2 (s.items flag) :=
  .leaf rfl s.payload.completes_items

end Segment

lemma Path.completes_items (flag : UInt32) (p : Path) : Completes 1 (Path.items flag p) := by
  have hinit := Completes.flatMap fun s (_ : s ∈ p.dropLast) => s.completes_items 0
  have hlast := Completes.flatMap fun s (_ : s ∈ p.getLast?.toList) => s.completes_items flag
  have hall := hinit.append hlast
  rw [← Nat.mul_add, ← List.length_append, dropLast_append_getLast?] at hall
  exact .node hall

/-! ### Expressions -/

namespace Expr

variable {e : Expr}

lemma completes_of_operands {n : Nat} (hn : e.IsNode) (ha : e.arity = n + 1)
    (h : Completes n e.operands) : Completes 1 e.items := by
  rw [items_of_isNode hn]
  refine .node ?_
  rw [Item.children, ha]
  exact .leaf rfl h

/-- An expression is written as one object, whatever it is written into. -/
lemma completes_items (e : Expr) : Completes 1 e.items := by
  -- The `rfl` compares the count in the header with the operands that there are.
  induction e with
  | literal v =>
    cases v with
    | list vs => exact completes_of_operands trivial rfl (Value.list vs).completes_items
    | _ =>
      rw [items, literalItems]
      · exact Value.completes_items _
      · simp
  | loopVar part kind => exact completes_of_operands trivial rfl (.leaf rfl (.leaf rfl .nil))
  | bin name kind => exact completes_of_operands trivial rfl (.leaf rfl (.leaf rfl .nil))
  | arith op a b iha ihb => exact completes_of_operands trivial rfl (iha.append ihb)
  | compare op a b iha ihb => exact completes_of_operands trivial rfl (iha.append ihb)
  | connect op es ih =>
    have hes := Completes.flatMap ih
    rw [Nat.one_mul] at hes
    exact completes_of_operands trivial rfl hes
  | not a ih => exact completes_of_operands trivial rfl ih
  | regex pattern flags a ih =>
    exact completes_of_operands trivial rfl (.leaf rfl (.leaf rfl ih))
  | geo a b iha ihb => exact completes_of_operands trivial rfl (iha.append ihb)
  | mapGet returns kind key map path ihk ihm =>
    exact completes_of_operands trivial rfl (.leaf rfl (.leaf rfl (.leaf rfl ihm)))
  | listSize list path ih =>
    exact completes_of_operands trivial rfl (.leaf rfl (.leaf rfl (.leaf rfl ih)))
  | call returns target payload e ih =>
    exact completes_of_operands trivial rfl (.leaf rfl (.leaf rfl (.leaf rfl ih)))
  | remove => exact completes_of_operands trivial rfl .nil

end Expr

/-! ### Writers -/

namespace Writer

variable {w : Writer} {is : List Item}

/-- All that a writer keeps of one object is its bytes and that it was one. -/
lemma write_of_completes (h : Completes 1 is) :
    w.write is = ⟨w.bytes ++ Item.pack is, completeOne w.pending⟩ := by
  rw [write, h]
  rfl

/-- A writer that one object was written to has nothing open. -/
lemma finish_write (h : Completes 1 is) : (empty.write is).finish = .ok (Item.pack is) := by
  rw [write_of_completes h]
  rfl

/-- One object may as well be packed before it is written. -/
lemma write_packed (h : Completes 1 is) : w.write [.packed (Item.pack is)] = w.write is := by
  have hone : Completes 1 [.packed (Item.pack is)] := .leaf rfl .nil
  have hbytes : Item.pack [.packed (Item.pack is)] = Item.pack is := List.append_nil _
  rw [write_of_completes hone, write_of_completes h, hbytes]

end Writer

end NestedPath
