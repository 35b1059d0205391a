import NestedPath.Proofs.Pending
import NestedPath.Proofs.Value.Bounds

/-!
Expressions written operand by operand.

The items of an expression are one list, with the payload of a call packed into it. Here they are
written as they come up, and a payload is put together in a writer of its own that has to be left
with nothing open. Wherever it is done, the outcome is that of packing the whole and writing it as
one object.
-/

namespace NestedPath

namespace Expr

/-- Writes the operands one after the other. The payload of a call has its own writer. -/
def writeTo : Expr → Writer → Except Unfinished Writer
  | literal v, w => .ok (w.write (literalItems v))
  | loopVar part kind, w =>
    .ok (w.write [.array 3, .nat 122, .nat (part.writtenKind kind).code, .nat part.code])
  | bin name kind, w => .ok (w.write [.array 3, .nat 81, .nat kind.code, .text name])
  | arith op a b, w => do b.writeTo (← a.writeTo (w.write [.array 3, .nat op.code]))
  | compare op a b, w => do b.writeTo (← a.writeTo (w.write [.array 3, .nat op.code]))
  | connect op es, w => writeAll es (w.write [.array (es.length + 1), .nat op.code])
  | not a, w => a.writeTo (w.write [.array 2, .nat 18])
  | regex pattern flags a, w =>
    a.writeTo (w.write [.array 4, .nat 7, .nat flags.bits.toNat, .text pattern])
  | geo a b, w => do b.writeTo (← a.writeTo (w.write [.array 3, .nat 8]))
  | mapGet returns kind key map path, w => do
    let inner := Writer.empty.write (commandItems path 97 2 ++ [.nat returns.code])
    let payload ← (← key.writeTo inner).finish
    map.writeTo (w.write (callHeader kind collections payload))
  | listSize list path, w => do
    let payload ← (Writer.empty.write (commandItems path 16 0)).finish
    list.writeTo (w.write (callHeader .int collections payload))
  | call returns target payload e, w => e.writeTo (w.write (callHeader returns target payload))
  | remove, w => .ok (w.write [.array 1, .nat 100])
where
  writeAll : List Expr → Writer → Except Unfinished Writer
    | [], w => .ok w
    | e :: es, w => do writeAll es (← e.writeTo w)

/-- An expression written to an empty writer, which then has to have nothing open. -/
def build (e : Expr) : Except Unfinished Program := do
  return ⟨← (← e.writeTo .empty).finish⟩

end Expr

open Item

/-! ### Runs of items -/

namespace Writer

variable {w : Writer}

lemma write_nil : w.write [] = w := by
  rw [write, Item.pack, List.flatMap_nil, List.append_nil, List.foldl_nil]

lemma write_append {is js : List Item} : (w.write is).write js = w.write (is ++ js) := by
  rw [write, write, write, List.foldl_append, Item.pack, Item.pack, Item.pack, List.flatMap_append,
    List.append_assoc]

end Writer

namespace Expr

/-- A command with its arguments is one object, whether it has a path in front of it or not. -/
lemma completes_commandItems {args : List Item} {n : Nat} (path : Path) (command : Int64)
    (h : Completes n args) : Completes 1 (commandItems path command n ++ args) := by
  have hcommand : Completes 1 ([.array (n + 1), .number command] ++ args) := .node (.leaf rfl h)
  rw [commandItems_eq, prefixItems, List.append_assoc]
  split
  · exact hcommand
  · exact .node (.leaf rfl ((path.completes_items 0).append hcommand))

/-! ### What is written -/

/-- The expression is written as its items are. -/
def WritesItems (e : Expr) : Prop := ∀ w : Writer, e.writeTo w = .ok (w.write e.items)

lemma writeAll_eq {es : List Expr} (h : ∀ e ∈ es, e.WritesItems) (w : Writer) :
    writeTo.writeAll es w = .ok (w.write (es.flatMap fun e => e.items)) := by
  induction es generalizing w with
  | nil => rw [writeTo.writeAll, List.flatMap_nil, Writer.write_nil]
  | cons e es ih =>
    have hrest := ih (fun f hf => h f (List.mem_cons_of_mem _ hf)) (w.write e.items)
    rw [Writer.write_append] at hrest
    exact except_bind_eq_ok.2 ⟨_, h e List.mem_cons_self w, hrest⟩

lemma writes_two {a b : Expr} (ha : a.WritesItems) (hb : b.WritesItems) (w : Writer)
    (header : List Item) : (do b.writeTo (← a.writeTo (w.write header))) =
      .ok (w.write (header ++ a.items ++ b.items)) := by
  refine except_bind_eq_ok.2 ⟨_, ha _, ?_⟩
  rw [hb, Writer.write_append, Writer.write_append, List.append_assoc]

/-- Every payload is one object, so that no writer of a payload is left with something open. -/
lemma writesItems (e : Expr) : e.WritesItems := by
  induction e with
  | literal v =>
    intro w
    rw [writeTo, items]
  | loopVar part kind =>
    intro w
    rw [writeTo, items]
  | bin name kind =>
    intro w
    rw [writeTo, items]
  | arith op a b iha ihb =>
    intro w
    rw [writeTo, writes_two iha ihb, items]
  | compare op a b iha ihb =>
    intro w
    rw [writeTo, writes_two iha ihb, items]
  | connect op es ih =>
    intro w
    rw [writeTo, writeAll_eq ih, Writer.write_append, items]
  | not a ih =>
    intro w
    rw [writeTo, ih, Writer.write_append, items]
  | regex pattern flags a ih =>
    intro w
    rw [writeTo, ih, Writer.write_append, items]
  | geo a b iha ihb =>
    intro w
    rw [writeTo, writes_two iha ihb, items]
  | mapGet returns kind key map path ihk ihm =>
    intro w
    have hargs : Completes 2 ([.nat returns.code] ++ key.items) := .leaf rfl key.completes_items
    -- The payload has a writer to itself, which can finish once the key is written.
    have hpayload := completes_commandItems path 97 hargs
    rw [← List.append_assoc] at hpayload
    have hkey := ihk (Writer.empty.write (commandItems path 97 2 ++ [.nat returns.code]))
    rw [Writer.write_append] at hkey
    refine except_bind_eq_ok.2 ⟨_, hkey, except_bind_eq_ok.2 ⟨_, Writer.finish_write hpayload, ?_⟩⟩
    rw [ihm, Writer.write_append, items]
  | listSize list path ih =>
    intro w
    have hpayload := completes_commandItems path 16 Completes.nil
    rw [List.append_nil] at hpayload
    refine except_bind_eq_ok.2 ⟨_, Writer.finish_write hpayload, ?_⟩
    rw [ih, Writer.write_append, items]
  | call returns target payload e ih =>
    intro w
    rw [writeTo, ih, Writer.write_append, items]
  | remove =>
    intro w
    rw [writeTo, items]

end Expr

/--
Whatever a writer holds and has open, an expression or a value adds to it what the packed bytes of
that expression or value do when they are written as one object. In a writer of its own nothing is
left open.
-/
theorem Writer.writes_as_packed (w : Writer) (e : Expr) (v : Value) :
    (e.writeTo w = .ok (w.write [.packed e.compile.bytes]) ∧
      w.write e.items = w.write [.packed e.compile.bytes] ∧ e.build = .ok e.compile) ∧
    (w.write v.items = w.write [.packed v.pack] ∧ (empty.write v.items).finish = .ok v.pack) ∧
    ∀ bytes, w.write [.packed bytes] = ⟨w.bytes ++ bytes, completeOne w.pending⟩ := by
  have he : w.write [.packed e.compile.bytes] = w.write e.items := write_packed e.completes_items
  have hv : w.write [.packed v.pack] = w.write v.items := write_packed v.completes_items
  have hbuild : e.build = .ok e.compile :=
    except_bind_eq_ok.2 ⟨_, e.writesItems _,
      except_bind_eq_ok.2 ⟨_, finish_write e.completes_items, rfl⟩⟩
  refine ⟨⟨?_, he.symm, hbuild⟩, ⟨hv.symm, finish_write v.completes_items⟩, fun bytes => ?_⟩
  · rw [he, e.writesItems]
  · rw [write, Item.pack, List.flatMap_singleton]
    rfl

end NestedPath
