import NestedPath.Proofs.Expr.Shape

/-!
Expressions without calls can be told from their compiled bytes, up to the kind of a variable that
is a place among siblings, which is always written as a number.

Every expression but a literal that is no list starts with a count and an operation code, and the
code says what the operands are.
-/

namespace NestedPath

/-! ### Codes -/

lemma ValueKind.code_inj {k l : ValueKind} (h : k.code = l.code) : k = l := by
  cases k <;> cases l <;> first | rfl | cases h

lemma LoopPart.code_inj {p q : LoopPart} (h : p.code = q.code) : p = q := by
  cases p <;> cases q <;> first | rfl | cases h

lemma MapReturn.code_inj {r s : MapReturn} (h : r.code = s.code) : r = s := by
  cases r <;> cases s <;> first | rfl | cases h

lemma ArithOp.code_inj {o p : ArithOp} (h : o.code = p.code) : o = p := by
  cases o <;> cases p <;> first | rfl | cases h

lemma Comparison.code_inj {o p : Comparison} (h : o.code = p.code) : o = p := by
  cases o <;> cases p <;> first | rfl | cases h

lemma Connective.code_inj {o p : Connective} (h : o.code = p.code) : o = p := by
  cases o <;> cases p <;> first | rfl | cases h

lemma ArithOp.code_lt (o : ArithOp) : o.code < 1 <<< 63 := by cases o <;> decide

lemma Comparison.code_lt (o : Comparison) : o.code < 1 <<< 63 := by cases o <;> decide

lemma Connective.code_lt (o : Connective) : o.code < 1 <<< 63 := by cases o <;> decide

lemma ValueKind.code_lt (k : ValueKind) : k.code < 1 <<< 63 := by cases k <;> decide

lemma LoopPart.code_lt (p : LoopPart) : p.code < 1 <<< 63 := by cases p <;> decide

lemma MapReturn.code_lt (r : MapReturn) : r.code < 1 <<< 63 := by cases r <;> decide

namespace Expr

/-! ### What is left of an expression when it is compiled -/

/-- The kind of every place among siblings is taken to be that of numbers. -/
def indexAsInt : Expr → Expr
  | literal v => literal v
  | loopVar part kind => loopVar part (part.writtenKind kind)
  | bin name kind => bin name kind
  | arith op a b => arith op a.indexAsInt b.indexAsInt
  | compare op a b => compare op a.indexAsInt b.indexAsInt
  | connect op es => connect op (es.map fun e => e.indexAsInt)
  | not a => not a.indexAsInt
  | regex pattern flags a => regex pattern flags a.indexAsInt
  | geo a b => geo a.indexAsInt b.indexAsInt
  | mapGet returns kind key map path => mapGet returns kind key.indexAsInt map.indexAsInt path
  | listSize list path => listSize list.indexAsInt path
  | call returns target payload e => call returns target payload e.indexAsInt
  | remove => remove

lemma writtenKind_idem (part : LoopPart) (kind : ValueKind) :
    part.writtenKind (part.writtenKind kind) = part.writtenKind kind := by
  cases part <;> rfl

lemma items_indexAsInt (e : Expr) : e.indexAsInt.items = e.items := by
  induction e with
  | literal v => rw [indexAsInt]
  | loopVar part kind => rw [indexAsInt, items, items, writtenKind_idem]
  | bin name kind => rw [indexAsInt]
  | arith op a b iha ihb => rw [indexAsInt, items, items, iha, ihb]
  | compare op a b iha ihb => rw [indexAsInt, items, items, iha, ihb]
  | connect op es ih =>
    rw [indexAsInt, items, items, List.length_map, List.flatMap_map, List.flatMap_congr ih]
  | not a ih => rw [indexAsInt, items, items, ih]
  | regex pattern flags a ih => rw [indexAsInt, items, items, ih]
  | geo a b iha ihb => rw [indexAsInt, items, items, iha, ihb]
  | mapGet returns kind key map path ihk ihm => rw [indexAsInt, items, items, ihk, ihm]
  | listSize list path ih => rw [indexAsInt, items, items, ih]
  | call returns target payload e ih => rw [indexAsInt, items, items, ih]
  | remove => rw [indexAsInt]

/-! ### Nodes -/

/-- The expression is written as a list of an operation code and operands. -/
def IsNode : Expr → Prop
  | literal (.list _) => True
  | literal _ => False
  | _ => True

/-- The number of elements of the list that a node is written as. -/
def arity : Expr → Nat
  | literal _ | not _ => 2
  | connect _ es => es.length + 1
  | regex .. => 4
  | mapGet .. | listSize .. | call .. => 5
  | remove => 1
  | _ => 3

def opcode : Expr → Nat
  | literal _ => 126
  | loopVar .. => 122
  | bin .. => 81
  | arith op .. => op.code
  | compare op .. => op.code
  | connect op _ => op.code
  | not _ => 18
  | regex .. => 7
  | geo .. => 8
  | mapGet .. | listSize .. | call .. => 127
  | remove => 100

def operands : Expr → List Item
  | literal v => v.items
  | loopVar part kind => [.nat (part.writtenKind kind).code, .nat part.code]
  | bin name kind => [.nat kind.code, .text name]
  | arith _ a b | compare _ a b | geo a b => a.items ++ b.items
  | connect _ es => es.flatMap items
  | not a => a.items
  | regex pattern flags a => .nat flags.bits.toNat :: .text pattern :: a.items
  | mapGet returns kind key map path =>
    .nat kind.code :: .nat collections.toNat ::
      .packed (Item.pack (commandItems path 97 2 ++ (.nat returns.code :: key.items))) :: map.items
  | listSize list path =>
    .nat ValueKind.int.code :: .nat collections.toNat ::
      .packed (Item.pack (commandItems path 16 0 ++ [])) :: list.items
  | call returns target payload e =>
    .nat returns.code :: .nat target.toNat :: .packed payload :: e.items
  | remove => []

lemma items_of_isNode {e : Expr} (h : e.IsNode) :
    e.items = .array e.arity :: .nat e.opcode :: e.operands := by
  cases e with
  | literal v =>
    cases v with
    | list vs =>
      rw [items, literalItems]
      rfl
    | _ => exact h.elim
  | mapGet returns kind key map path =>
    rw [items, List.append_assoc]
    rfl
  | listSize list path =>
    rw [items, operands, List.append_nil]
    rfl
  | _ =>
    rw [items]
    rfl

lemma opcode_lt (e : Expr) : e.opcode < 1 <<< 63 := by
  cases e with
  | arith op => exact op.code_lt
  | compare op => exact op.code_lt
  | connect op => exact op.code_lt
  | _ => exact of_decide_eq_true rfl

/-- What an operation code says about the operands. -/
inductive Shape where
  | literal | loopVar | bin | arith | compare | connect | not | regex | geo | command | remove

def shape : Expr → Shape
  | literal _ => .literal
  | loopVar .. => .loopVar
  | bin .. => .bin
  | arith .. => .arith
  | compare .. => .compare
  | connect .. => .connect
  | not _ => .not
  | regex .. => .regex
  | geo .. => .geo
  | mapGet .. | listSize .. | call .. => .command
  | remove => .remove

def Shape.ofCode : Nat → Shape
  | 126 => literal
  | 122 => loopVar
  | 81 => bin
  | 20 | 21 | 22 | 23 => arith
  | 1 | 2 | 3 | 4 | 5 | 6 => compare
  | 16 | 17 => connect
  | 18 => not
  | 7 => regex
  | 8 => geo
  | 127 => command
  | _ => remove

lemma shape_of_opcode (e : Expr) : e.shape = Shape.ofCode e.opcode := by
  cases e with
  | arith op => cases op <;> rfl
  | compare op => cases op <;> rfl
  | connect op => cases op <;> rfl
  | _ => rfl

/-! ### What can be told apart -/

def IsCall : Expr → Prop
  | call .. => True
  | _ => False

/--
Every length and count that is written for the node itself has a numeral of four bytes, and every
filter of its path is one packed object.
-/
def Packable : Expr → Prop
  | literal v => v.Sized
  | bin name _ => name.utf8ByteSize < 1 <<< 32
  | connect _ es => es.length + 1 < 1 <<< 32
  | regex pattern _ _ => pattern.utf8ByteSize < 1 <<< 32
  | mapGet _ _ _ _ path | listSize _ path => path.Packable
  | _ => True

/-- There is no call in the expression, and everything in it can be written. -/
def Plain (e : Expr) : Prop := e.All fun e => ¬ e.IsCall ∧ e.Packable

variable {a b e : Expr} {s t : Bytes}

lemma arity_lt (h : e.Packable) : e.arity < 1 <<< 32 := by
  cases e with
  | connect op es => exact h
  | _ => exact of_decide_eq_true rfl

lemma exists_literal (h : ¬ e.IsNode) :
    ∃ v, e = literal v ∧ e.items = v.items ∧ ∀ n, v.head ≠ .array n := by
  cases e with
  | literal v =>
    refine ⟨v, rfl, ?_⟩
    cases v with
    | list vs => exact absurd trivial h
    | _ =>
      rw [items, literalItems]
      · exact ⟨rfl, fun n hn => by cases hn⟩
      · intro vs hv
        cases hv
  | _ => exact absurd trivial h

/-- A list is not taken for anything else. -/
lemma isNode_of_items (ha : a.Plain) (hb : b.Plain) (hn : a.IsNode)
    (e : Item.pack a.items ++ s = Item.pack b.items ++ t) : b.IsNode := by
  by_contra hnb
  obtain ⟨v, rfl, hitems, hhead⟩ := exists_literal hnb
  have hv : v.Sized := (All.self hb).2
  rw [items_of_isNode hn, hitems, Value.items_eq] at e
  obtain ⟨h, -⟩ := Item.pack_cons_inj e ⟨arity_lt (All.self ha).2, trivial⟩ (Value.head_sized hv)
  exact hhead _ h.symm

/-- Nodes with the same bytes have as many operands, the same operation, and operands alike. -/
lemma node_inj (ha : a.Plain) (hb : b.Plain) (hn : a.IsNode)
    (e : Item.pack a.items ++ s = Item.pack b.items ++ t) :
    a.shape = b.shape ∧ a.arity = b.arity ∧ a.opcode = b.opcode ∧
      Item.pack a.operands ++ s = Item.pack b.operands ++ t := by
  have hnb := isNode_of_items ha hb hn e
  rw [items_of_isNode hn, items_of_isNode hnb] at e
  have hpa := arity_lt (All.self ha).2
  have hpb := arity_lt (All.self hb).2
  obtain ⟨hlen, e⟩ := Item.pack_cons_inj e ⟨hpa, trivial⟩ ⟨hpb, trivial⟩
  obtain ⟨ho, e⟩ := Item.pack_cons_inj e ⟨trivial, trivial⟩ ⟨trivial, trivial⟩
  have ho := Item.nat_inj (opcode_lt a) (opcode_lt b) ho
  refine ⟨?_, Item.array.inj hlen, ho, e⟩
  rw [shape_of_opcode, shape_of_opcode, ho]

def prefixItems (path : Path) : List Item :=
  if path.isEmpty then [] else .array 3 :: .nat Path.frameCode :: Path.items 0 path

lemma commandItems_eq (path : Path) (command : Int64) (args : Nat) :
    commandItems path command args = prefixItems path ++ [.array (args + 1), .number command] := by
  rw [commandItems, prefixItems]
  split
  · rfl
  · rw [Path.frameItems, List.append_assoc]
    rfl

/-- A command tells the path in front of it, unless it is itself the code of a path. -/
lemma commandItems_inj {p q : Path} {c d : Int64} {m n : Nat} (hp : p.Packable) (hq : q.Packable)
    (hc : Item.number c ≠ .nat Path.frameCode) (hd : Item.number d ≠ .nat Path.frameCode)
    (hm : m + 1 < 1 <<< 32) (hn : n + 1 < 1 <<< 32)
    (e : Item.pack (commandItems p c m) ++ s = Item.pack (commandItems q d n) ++ t) :
    p = q ∧ m = n ∧ s = t := by
  have hcommand {s t : Bytes} (e : Item.pack [.array (m + 1), .number c] ++ s =
      Item.pack [.array (n + 1), .number d] ++ t) : m = n ∧ s = t := by
    obtain ⟨hmn, e⟩ := Item.pack_cons_inj e ⟨hm, trivial⟩ ⟨hn, trivial⟩
    obtain ⟨-, e⟩ := Item.pack_cons_inj e ⟨trivial, trivial⟩ ⟨trivial, trivial⟩
    exact ⟨Nat.succ.inj (Item.array.inj hmn), e⟩
  have h3 : Item.Sized (.array 3) := show 3 < 1 <<< 32 by decide
  rw [commandItems_eq, commandItems_eq] at e
  -- A path is announced by the code of paths in the place where a command has its own.
  cases p with
  | nil =>
    cases q with
    | nil =>
      exact ⟨rfl, hcommand e⟩
    | cons y q =>
      obtain ⟨-, e⟩ := Item.pack_cons_inj e ⟨hm, trivial⟩ ⟨h3, trivial⟩
      obtain ⟨h, -⟩ := Item.pack_cons_inj e ⟨trivial, trivial⟩ ⟨trivial, trivial⟩
      exact absurd h hc
  | cons x p =>
    cases q with
    | nil =>
      obtain ⟨-, e⟩ := Item.pack_cons_inj e ⟨h3, trivial⟩ ⟨hn, trivial⟩
      obtain ⟨h, -⟩ := Item.pack_cons_inj e ⟨trivial, trivial⟩ ⟨trivial, trivial⟩
      exact absurd h.symm hd
    | cons y q =>
      obtain ⟨-, e⟩ := Item.pack_cons_inj e ⟨h3, trivial⟩ ⟨h3, trivial⟩
      obtain ⟨-, e⟩ := Item.pack_cons_inj e ⟨trivial, trivial⟩ ⟨trivial, trivial⟩
      change Item.pack (Path.items 0 (x :: p) ++ _) ++ s =
        Item.pack (Path.items 0 (y :: q) ++ _) ++ t at e
      rw [Item.pack_append, Item.pack_append, List.append_assoc, List.append_assoc] at e
      obtain ⟨hpq, e⟩ := Path.separates hp hq _ _ e
      exact ⟨hpq, hcommand e⟩

/-- Two expressions in a row are told apart one after the other. -/
lemma pair_inj {x y x' y' : Expr} (hx : Item.Separates items indexAsInt x x')
    (hy : Item.Separates items indexAsInt y y')
    (e : Item.pack (x.items ++ y.items) ++ s = Item.pack (x'.items ++ y'.items) ++ t) :
    x.indexAsInt = x'.indexAsInt ∧ y.indexAsInt = y'.indexAsInt ∧ s = t := by
  rw [Item.pack_append, Item.pack_append, List.append_assoc, List.append_assoc] at e
  obtain ⟨hx, e⟩ := hx _ _ e
  exact ⟨hx, hy _ _ e⟩

lemma separates_literal {v : Value} (ha : (literal v).Plain) (hb : b.Plain) :
    Item.Separates items indexAsInt (literal v) b := by
  intro s t e
  have hv : v.Sized := (All.self ha).2
  by_cases hn : (literal v).IsNode
  · obtain ⟨hs, -, -, e⟩ := node_inj ha hb hn e
    cases b with
    | literal w =>
      obtain ⟨hvw, hst⟩ := Value.separates hv (All.self hb).2 _ _ e
      rw [indexAsInt, indexAsInt]
      exact ⟨congrArg literal hvw, hst⟩
    | _ => cases hs
  · have hnb : ¬ b.IsNode := fun h => hn (isNode_of_items hb ha h e.symm)
    obtain ⟨v', hv', hav, -⟩ := exists_literal hn
    obtain ⟨w, rfl, hbw, -⟩ := exists_literal hnb
    cases hv'
    rw [hav, hbw] at e
    obtain ⟨hvw, hst⟩ := Value.separates hv (All.self hb).2 _ _ e
    rw [indexAsInt, indexAsInt]
    exact ⟨congrArg literal hvw, hst⟩

lemma nat_toNat_inj {m n : UInt32} (h : Item.nat m.toNat = .nat n.toNat) : m = n := by
  have hm : m.toNat < 1 <<< 32 := m.toNat_lt
  have hn : n.toNat < 1 <<< 32 := n.toNat_lt
  exact UInt32.toNat_inj.1 (Item.nat_inj (by omega) (by omega) h)

/-- A packed payload in front of a last operand shows the items it was packed from. -/
lemma pack_payload (is js : List Item) :
    Item.pack (.packed (Item.pack is) :: js) = Item.pack is ++ Item.pack js := by
  rw [Item.pack_cons]
  rfl

/-- The start of a command, what follows it and the last operand are told apart in turn. -/
lemma command_inj {p q : Path} {c d : Int64} {m n : Nat} {is js is' js' : List Item}
    (hp : p.Packable) (hq : q.Packable) (hc : Item.number c ≠ .nat Path.frameCode)
    (hd : Item.number d ≠ .nat Path.frameCode) (hm : m + 1 < 1 <<< 32) (hn : n + 1 < 1 <<< 32)
    (e : Item.pack (.packed (Item.pack (commandItems p c m ++ is)) :: js) ++ s =
      Item.pack (.packed (Item.pack (commandItems q d n ++ is')) :: js') ++ t) :
    p = q ∧ m = n ∧ Item.pack (is ++ js) ++ s = Item.pack (is' ++ js') ++ t := by
  rw [pack_payload, pack_payload, Item.pack_append, Item.pack_append, List.append_assoc,
    List.append_assoc, List.append_assoc, List.append_assoc] at e
  obtain ⟨hpq, hmn, e⟩ := commandItems_inj hp hq hc hd hm hn e
  refine ⟨hpq, hmn, ?_⟩
  rwa [Item.pack_append, Item.pack_append, List.append_assoc, List.append_assoc]

/-- The kind and the target of a call come before its payload. -/
lemma callHeader_inj {k l : ValueKind} {is js : List Item}
    (e : Item.pack (.nat k.code :: .nat collections.toNat :: is) ++ s =
      Item.pack (.nat l.code :: .nat collections.toNat :: js) ++ t) :
    k = l ∧ Item.pack is ++ s = Item.pack js ++ t := by
  obtain ⟨hk, e⟩ := Item.pack_cons_inj e ⟨trivial, trivial⟩ ⟨trivial, trivial⟩
  obtain ⟨-, e⟩ := Item.pack_cons_inj e ⟨trivial, trivial⟩ ⟨trivial, trivial⟩
  exact ⟨ValueKind.code_inj (Item.nat_inj k.code_lt l.code_lt hk), e⟩

lemma separates (ha : a.Plain) (hb : b.Plain) : Item.Separates items indexAsInt a b := by
  -- The operation code of a node leaves one constructor for `b`. The two look-ups share theirs with
  -- calls, which are ruled out, and with each other; they differ in the number of arguments.
  induction a generalizing b with
  | literal v => exact separates_literal ha hb
  | loopVar part kind =>
    intro s t e
    obtain ⟨hs, -, -, e⟩ := node_inj ha hb trivial e
    cases b with
    | loopVar part' kind' =>
      obtain ⟨hk, e⟩ := Item.pack_cons_inj e ⟨trivial, trivial⟩ ⟨trivial, trivial⟩
      obtain ⟨hp, e⟩ := Item.pack_cons_inj e ⟨trivial, trivial⟩ ⟨trivial, trivial⟩
      have hk := ValueKind.code_inj (Item.nat_inj (ValueKind.code_lt _) (ValueKind.code_lt _) hk)
      have hp := LoopPart.code_inj (Item.nat_inj part.code_lt part'.code_lt hp)
      rw [indexAsInt, indexAsInt, hk, hp]
      exact ⟨rfl, e⟩
    | _ => cases hs
  | bin name kind =>
    intro s t e
    obtain ⟨hs, -, -, e⟩ := node_inj ha hb trivial e
    cases b with
    | bin name' kind' =>
      obtain ⟨hk, e⟩ := Item.pack_cons_inj e ⟨trivial, trivial⟩ ⟨trivial, trivial⟩
      obtain ⟨hname, e⟩ := Item.pack_text_inj e (All.self ha).2 (All.self hb).2
      have hk := ValueKind.code_inj (Item.nat_inj kind.code_lt kind'.code_lt hk)
      rw [indexAsInt, indexAsInt, hname, hk]
      exact ⟨rfl, e⟩
    | _ => cases hs
  | arith op x y ihx ihy =>
    intro s t e
    obtain ⟨hs, -, ho, e⟩ := node_inj ha hb trivial e
    cases b with
    | arith op' x' y' =>
      rw [Plain, All] at ha hb
      obtain ⟨hx, hy, hst⟩ := pair_inj (ihx ha.2.1 hb.2.1) (ihy ha.2.2 hb.2.2) e
      rw [indexAsInt, indexAsInt, ArithOp.code_inj ho, hx, hy]
      exact ⟨rfl, hst⟩
    | _ => cases hs
  | compare op x y ihx ihy =>
    intro s t e
    obtain ⟨hs, -, ho, e⟩ := node_inj ha hb trivial e
    cases b with
    | compare op' x' y' =>
      rw [Plain, All] at ha hb
      obtain ⟨hx, hy, hst⟩ := pair_inj (ihx ha.2.1 hb.2.1) (ihy ha.2.2 hb.2.2) e
      rw [indexAsInt, indexAsInt, Comparison.code_inj ho, hx, hy]
      exact ⟨rfl, hst⟩
    | _ => cases hs
  | connect op es ih =>
    intro s t e
    obtain ⟨hs, hlen, ho, e⟩ := node_inj ha hb trivial e
    cases b with
    | connect op' fs =>
      rw [Plain, All] at ha hb
      have hes : ∀ e ∈ es, ∀ f ∈ fs, Item.Separates items indexAsInt e f := fun e he f hf =>
        ih e he (ha.2 e he) (hb.2 f hf)
      obtain ⟨hmap, hst⟩ := Item.Separates.flatMap hes (Nat.succ.inj hlen) _ _ e
      rw [indexAsInt, indexAsInt, Connective.code_inj ho, hmap]
      exact ⟨rfl, hst⟩
    | _ => cases hs
  | not x ih =>
    intro s t e
    obtain ⟨hs, -, -, e⟩ := node_inj ha hb trivial e
    cases b with
    | not x' =>
      rw [Plain, All] at ha hb
      obtain ⟨hx, hst⟩ := ih ha.2 hb.2 _ _ e
      rw [indexAsInt, indexAsInt, hx]
      exact ⟨rfl, hst⟩
    | _ => cases hs
  | regex pattern flags x ih =>
    intro s t e
    obtain ⟨hs, -, -, e⟩ := node_inj ha hb trivial e
    cases b with
    | regex pattern' flags' x' =>
      obtain ⟨hf, e⟩ := Item.pack_cons_inj e ⟨trivial, trivial⟩ ⟨trivial, trivial⟩
      obtain ⟨hp, e⟩ := Item.pack_text_inj e (All.self ha).2 (All.self hb).2
      have hf : flags = flags' := congrArg Flags.mk (nat_toNat_inj hf)
      rw [Plain, All] at ha hb
      obtain ⟨hx, hst⟩ := ih ha.2 hb.2 _ _ e
      rw [indexAsInt, indexAsInt, hp, hf, hx]
      exact ⟨rfl, hst⟩
    | _ => cases hs
  | geo x y ihx ihy =>
    intro s t e
    obtain ⟨hs, -, -, e⟩ := node_inj ha hb trivial e
    cases b with
    | geo x' y' =>
      rw [Plain, All] at ha hb
      obtain ⟨hx, hy, hst⟩ := pair_inj (ihx ha.2.1 hb.2.1) (ihy ha.2.2 hb.2.2) e
      rw [indexAsInt, indexAsInt, hx, hy]
      exact ⟨rfl, hst⟩
    | _ => cases hs
  | mapGet returns kind key map path ihk ihm =>
    intro s t e
    obtain ⟨hs, -, -, e⟩ := node_inj ha hb trivial e
    cases b with
    | mapGet returns' kind' key' map' path' =>
      obtain ⟨hk, e⟩ := callHeader_inj e
      obtain ⟨hp, -, e⟩ := command_inj (All.self ha).2 (All.self hb).2 (by decide) (by decide)
        (by decide) (by decide) e
      obtain ⟨hr, e⟩ := Item.pack_cons_inj e ⟨trivial, trivial⟩ ⟨trivial, trivial⟩
      have hr := MapReturn.code_inj (Item.nat_inj returns.code_lt returns'.code_lt hr)
      rw [Plain, All] at ha hb
      obtain ⟨hkey, hmap, hst⟩ := pair_inj (ihk ha.2.1 hb.2.1) (ihm ha.2.2 hb.2.2) e
      rw [indexAsInt, indexAsInt, hr, hk, hkey, hmap, hp]
      exact ⟨rfl, hst⟩
    | listSize list' path' =>
      obtain ⟨-, e⟩ := callHeader_inj e
      obtain ⟨-, h, -⟩ := command_inj (All.self ha).2 (All.self hb).2 (by decide) (by decide)
        (by decide) (by decide) e
      cases h
    | call returns' target' payload' x' => exact absurd trivial (All.self hb).1
    | _ => cases hs
  | listSize list path ih =>
    intro s t e
    obtain ⟨hs, -, -, e⟩ := node_inj ha hb trivial e
    cases b with
    | mapGet returns' kind' key' map' path' =>
      obtain ⟨-, e⟩ := callHeader_inj e
      obtain ⟨-, h, -⟩ := command_inj (All.self ha).2 (All.self hb).2 (by decide) (by decide)
        (by decide) (by decide) e
      cases h
    | listSize list' path' =>
      obtain ⟨-, e⟩ := callHeader_inj e
      obtain ⟨hp, -, e⟩ := command_inj (All.self ha).2 (All.self hb).2 (by decide) (by decide)
        (by decide) (by decide) e
      rw [Plain, All] at ha hb
      obtain ⟨hlist, hst⟩ := ih ha.2 hb.2 _ _ e
      rw [indexAsInt, indexAsInt, hlist, hp]
      exact ⟨rfl, hst⟩
    | call returns' target' payload' x' => exact absurd trivial (All.self hb).1
    | _ => cases hs
  | call returns target payload x ih => exact absurd trivial (All.self ha).1
  | remove =>
    intro s t e
    obtain ⟨hs, -, -, e⟩ := node_inj ha hb trivial e
    cases b with
    | remove => exact ⟨rfl, e⟩
    | _ => cases hs

/--
Two expressions without calls are compiled to the same bytes just if they are equal once the kind
of every place among siblings is taken to be that of numbers.
-/
theorem compile_eq_iff (ha : a.Plain) (hb : b.Plain) :
    a.compile.bytes = b.compile.bytes ↔ (a.indexAsInt == b.indexAsInt) = true := by
  rw [beq_iff_eq]
  constructor
  · intro h
    exact (separates ha hb [] [] (congrArg (· ++ []) h)).1
  · intro h
    change Item.pack a.items = Item.pack b.items
    rw [← items_indexAsInt a, ← items_indexAsInt b, h]

/-- A look-up behind a filtered path, with the place of an element read as some kind. -/
theorem compile_eq_place_kinds :
    (connect .and [mapGet .value .int (loopVar .index .string) (bin "m" .map) [.allChildren],
        literal (.list [.int 1])]).compile.bytes =
      (connect .and [mapGet .value .int (loopVar .index .float) (bin "m" .map) [.allChildren],
        literal (.list [.int 1])]).compile.bytes := by
  have plain (kind : ValueKind) : Plain (connect .and
      [mapGet .value .int (loopVar .index kind) (bin "m" .map) [.allChildren],
        literal (.list [.int 1])]) := by
    have hname : "m".utf8ByteSize = 1 := by decide
    simp [Plain, All, IsCall, Packable, Path.Packable, Segment.packable_allChildren, Value.Sized,
      Value.all_list, Value.All, Value.Bounded, hname]
  refine (compile_eq_iff (plain .string) (plain .float)).2 (beq_iff_eq.2 ?_)
  simp [indexAsInt, LoopPart.writtenKind]

end Expr

end NestedPath
