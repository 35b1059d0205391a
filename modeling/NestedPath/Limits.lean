/-!
Limits on what is written and read.

A stored path may come from anywhere, so reading is bounded in depth and size. Writing keeps to the
same bounds: what is written can be read back under the default limits.
-/

namespace NestedPath

namespace Limits

/-- Levels of lists and maps inside one packed object. -/
def depth : Nat := 64

def segments : Nat := 256

/-- Elements of a list or map. -/
def items : Nat := 1 <<< 20

/-- Bytes of a text or blob, its type byte included. -/
def body : Nat := 16 * 1024 * 1024

end Limits

/-- The limits under which a stored path is read. -/
structure ReadLimits where
  /-- Levels of lists and maps inside the payload of a segment. -/
  depth : Nat := Limits.depth
  /-- Segments of the path. -/
  segments : Nat := Limits.segments
  deriving DecidableEq

namespace ReadLimits

/-- Limits that admit every path that can be written. -/
def standard : ReadLimits := {}

/-- Narrower limits for paths of unknown origin. -/
def strict : ReadLimits := { depth := 16, segments := 32 }

instance : Inhabited ReadLimits := ⟨standard⟩

end ReadLimits

end NestedPath
