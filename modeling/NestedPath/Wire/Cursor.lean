import NestedPath.Wire.Reader

/-!
A place in packed bytes, moved by readers.

A cursor outlives the failure of a reader: it stands where the reader stopped.
-/

namespace NestedPath

structure Cursor where
  data : Bytes
  rest : Bytes

namespace Cursor

def start (data : Bytes) : Cursor := ⟨data, data⟩

/-- The number of bytes in front of the cursor. -/
def position (c : Cursor) : Nat := c.data.length - c.rest.length

def remaining (c : Cursor) : Nat := c.rest.length

def isEmpty (c : Cursor) : Bool := c.rest.isEmpty

/-- The bytes from a position up to the cursor. -/
def sliceFrom (c : Cursor) (start : Nat) : Bytes := (c.data.take c.position).drop start

def read {α : Type} (c : Cursor) (r : Reader α) : Except DecodeError α × Cursor :=
  match r c.rest with
  | .ok a rest => (.ok a, { c with rest })
  | .error e rest => (.error e, { c with rest })

end Cursor

end NestedPath
