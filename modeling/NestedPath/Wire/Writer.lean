import NestedPath.Wire.Item

/-!
Packed bytes under construction.

A writer keeps the bytes so far and, for each list or map that is not complete, innermost first,
the number of objects that it still waits for. An object that completes its list or map is, with
it, an object of the next one out.
-/

namespace NestedPath

/-- The missing objects of the open lists and maps after one more object. -/
def completeOne : List Nat → List Nat
  | [] => []
  | n :: outer => if n ≤ 1 then completeOne outer else (n - 1) :: outer

/-- The missing objects of the open lists and maps after an item. -/
def Item.settle (pending : List Nat) (item : Item) : List Nat :=
  if item.children = 0 then completeOne pending else item.children :: pending

structure Unfinished where
  count : Nat
  deriving DecidableEq

def Unfinished.message (e : Unfinished) : String :=
  s!"packer finished with {e.count} unterminated container(s)"

structure Writer where
  bytes : Bytes
  pending : List Nat
  deriving DecidableEq

namespace Writer

def empty : Writer := ⟨[], []⟩

instance : Inhabited Writer := ⟨empty⟩

def write (w : Writer) (items : List Item) : Writer :=
  ⟨w.bytes ++ Item.pack items, items.foldl Item.settle w.pending⟩

/-- The bytes, if every list and map is complete. -/
def finish (w : Writer) : Except Unfinished Bytes :=
  if w.pending.isEmpty then .ok w.bytes else .error ⟨w.pending.length⟩

end Writer

end NestedPath
