import NestedPath.Wire.Reader

/-!
Whole packed objects, passed over without looking at what they mean.
-/

namespace NestedPath.Reader

/-- What comes behind the first byte of an object: so many bytes, and then so many objects. -/
def extent (b : UInt8) (reading : String) : Reader (Nat × Nat) :=
  match Marker.ofByte b with
  | .fixint _ | .nil | .bool _ => return (0, 0)
  | .uint width | .int width => return (width, 0)
  | .float32 => return (4, 0)
  | .float64 => return (8, 0)
  | .fixstr size => return (size, 0)
  | .fixext size => return (size + 1, 0)
  | .str width | .bin width => return (← uint width reading, 0)
  | .ext width => return ((← uint width reading) + 1, 0)
  | .fixarray count => return (0, count)
  | .array width => return (0, ← uint width reading)
  | .fixmap count => return (0, 2 * count)
  | .map width => return (0, 2 * (← uint width reading))
  | .reserved => throw (.marker b reading)

/-- Passes over one object that is at most `room - 1` levels deep. -/
def skipWithin (max : Nat) (reading : String) : Nat → Reader Unit
  | 0 => throw (.tooDeep max)
  | room + 1 => do
    let b ← byte reading
    let (size, count) ← extent b reading
    let _ ← bytes size reading
    skipTimes (skipWithin max reading room) count

def skip (max : Nat) (reading : String) : Reader Unit := skipWithin max reading (max + 1)

/-- The bytes of one object that is at most `max` levels deep. -/
def object (max : Nat) (reading : String) : Reader Bytes := taken (skip max reading)

end NestedPath.Reader
