import NestedPath.Proofs.Expr.Injective
import NestedPath.Proofs.Path.Nesting

/-!
How deep compiled expressions nest.

Each node declares how many objects it is a list of and then writes as many, so that a compiled
expression is one object. What is packed before, the payload of a call or a filter in a path, has to
be one object for that.
-/

namespace NestedPath

open Reader

namespace Expr

/-- What an expression calls with is one packed object. -/
def CallsObject : Expr → Prop
  | call _ _ payload _ => IsObject payload
  | _ => True

/--
Every length and count in the expression has a numeral of four bytes, and every filter of a path
and every payload of a call in it is one packed object.
-/
def WellFormed (e : Expr) : Prop := e.All fun e => e.Packable ∧ e.CallsObject

/-- The levels of a command whose arguments have these levels, behind a path unless it is empty. -/
def commandNesting (path : Path) (args : List Nat) : Nat :=
  if path.isEmpty then levelsOver (0 :: args)
  else levelsOver [0, path.nesting, levelsOver (0 :: args)]

/--
The levels of lists and maps in what an expression is compiled to. Each node is a list, of which
the levels of the elements are named in turn.
-/
def nesting : Expr → Nat
  | literal (.list vs) => levelsOver [0, (Value.list vs).nesting]
  | literal v => v.nesting
  | loopVar .. | bin .. => levelsOver [0, 0, 0]
  | arith _ a b | compare _ a b | geo a b => levelsOver [0, a.nesting, b.nesting]
  | connect _ es => levelsOver (0 :: es.map fun e => e.nesting)
  | not a => levelsOver [0, a.nesting]
  | regex _ _ a => levelsOver [0, 0, 0, a.nesting]
  | mapGet _ _ key map path =>
    levelsOver [0, 0, 0, commandNesting path [0, key.nesting], map.nesting]
  | listSize list path => levelsOver [0, 0, 0, commandNesting path [], list.nesting]
  | call _ _ payload e => levelsOver [0, 0, 0, payload.levels, e.nesting]
  | remove => levelsOver [0]

variable {e : Expr}

/-! ### Nodes -/

/-- A node is one object if its operands are as many objects as it declares. -/
lemma nests_of_operands {ds : List Nat} (hn : e.IsNode) (hp : e.Packable)
    (hlen : ds.length + 1 = e.arity) (h : Nests ds (Item.pack e.operands)) :
    Nests [levelsOver (0 :: ds)] (Item.pack e.items) := by
  rw [items_of_isNode hn]
  exact Item.nests_array hlen (arity_lt hp) (Item.nests_nat _ h)

/-- A command is one object together with as many arguments as it declares. -/
lemma nests_command {path : Path} (hp : path.Packable) (command : Int64) {args : List Nat}
    {is : List Item} (hlen : args.length + 1 < 1 <<< 32) (h : Nests args (Item.pack is)) :
    Nests [commandNesting path args]
      (Item.pack (commandItems path command args.length ++ is)) := by
  have hcommand : Nests [levelsOver (0 :: args)]
      (Item.pack (.array (args.length + 1) :: .number command :: is)) :=
    Item.nests_array rfl hlen (Item.nests_cons (Item.nests trivial trivial) h)
  unfold commandNesting commandItems
  split
  · exact hcommand
  · rw [Path.frameItems, List.append_assoc, List.append_assoc]
    exact Item.nests_array rfl (by decide)
      (Item.nests_nat _ (Item.nests_append (hp.nests 0) hcommand))

/-! ### Whole expressions -/

/-- A compiled expression is one object, as deep as the expression says. -/
lemma nests_items (h : e.WellFormed) : Nests [e.nesting] (Item.pack e.items) := by
  have hcodes (a b : Nat) {ds : List Nat} {is : List Item} (h : Nests ds (Item.pack is)) :
      Nests (0 :: 0 :: ds) (Item.pack (.nat a :: .nat b :: is)) :=
    Item.nests_nat a (Item.nests_nat b h)
  -- In each case the `rfl` compares the count in the header with the operands that there are.
  induction e with
  | literal v =>
    obtain ⟨hp, -⟩ := All.self h
    cases v with
    | list vs =>
      rw [nesting]
      exact nests_of_operands trivial hp rfl (Value.nests_pack hp)
    | _ =>
      rw [nesting, items, literalItems]
      · exact Value.nests_pack hp
      · simp
      · simp
  | loopVar part kind =>
    rw [nesting]
    exact nests_of_operands trivial trivial rfl (hcodes _ _ .nil)
  | bin name kind =>
    obtain ⟨hp, -⟩ := All.self h
    have hname : Nests [0] (Item.bytes (.text name)) := Item.nests hp trivial
    rw [nesting]
    exact nests_of_operands trivial hp rfl (Item.nests_nat _ (Item.nests_cons hname .nil))
  | arith op a b iha ihb =>
    rw [WellFormed, All] at h
    obtain ⟨-, ha, hb⟩ := h
    rw [nesting]
    exact nests_of_operands trivial trivial rfl (Item.nests_append (iha ha) (ihb hb))
  | compare op a b iha ihb =>
    rw [WellFormed, All] at h
    obtain ⟨-, ha, hb⟩ := h
    rw [nesting]
    exact nests_of_operands trivial trivial rfl (Item.nests_append (iha ha) (ihb hb))
  | connect op es ih =>
    rw [WellFormed, All] at h
    obtain ⟨⟨hp, -⟩, hall⟩ := h
    have hes : Nests (es.map nesting) (Item.pack (es.flatMap items)) := by
      rw [Item.pack_flatMap]
      exact Nests.map fun e he => ih e he (hall e he)
    have hlen : (es.map nesting).length + 1 = (connect op es).arity := by
      rw [List.length_map]
      rfl
    rw [nesting]
    exact nests_of_operands trivial hp hlen hes
  | not a ih =>
    rw [WellFormed, All] at h
    obtain ⟨-, ha⟩ := h
    rw [nesting]
    exact nests_of_operands trivial trivial rfl (ih ha)
  | regex pattern flags a ih =>
    rw [WellFormed, All] at h
    obtain ⟨⟨hp, -⟩, ha⟩ := h
    have hpattern : Nests [0] (Item.bytes (.text pattern)) := Item.nests hp trivial
    rw [nesting]
    exact nests_of_operands trivial hp rfl (Item.nests_nat _ (Item.nests_cons hpattern (ih ha)))
  | geo a b iha ihb =>
    rw [WellFormed, All] at h
    obtain ⟨-, ha, hb⟩ := h
    rw [nesting]
    exact nests_of_operands trivial trivial rfl (Item.nests_append (iha ha) (ihb hb))
  | mapGet returns kind key map path ihk ihm =>
    rw [WellFormed, All] at h
    obtain ⟨⟨hp, -⟩, hkey, hmap⟩ := h
    have hcommand := nests_command hp 97 (by simp) (Item.nests_nat returns.code (ihk hkey))
    have hargs := Item.nests_cons (i := .packed _) hcommand (ihm hmap)
    rw [nesting]
    exact nests_of_operands trivial hp rfl (hcodes _ _ hargs)
  | listSize list path ih =>
    rw [WellFormed, All] at h
    obtain ⟨⟨hp, -⟩, hlist⟩ := h
    have hnone : Nests [] (Item.pack []) := .nil
    have hcommand := nests_command hp 16 (by decide) hnone
    have hargs := Item.nests_cons (i := .packed _) hcommand (ih hlist)
    rw [nesting]
    exact nests_of_operands trivial hp rfl (hcodes _ _ hargs)
  | call returns target payload e ih =>
    rw [WellFormed, All] at h
    obtain ⟨⟨-, hp⟩, he⟩ := h
    have hpayload : Nests [payload.levels] (Item.bytes (.packed payload)) := IsObject.nests hp
    rw [nesting]
    exact nests_of_operands trivial trivial rfl (hcodes _ _ (Item.nests_cons hpayload (ih he)))
  | remove =>
    rw [nesting]
    exact nests_of_operands trivial trivial rfl .nil

end Expr

end NestedPath
