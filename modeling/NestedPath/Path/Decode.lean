import NestedPath.Path.Basic
import NestedPath.Value.Unpack

/-!
Reading paths.

The payload behind the plain id of a filtered step is taken as it is; behind any other id a value
is read, and id and payload must then fit.
-/

namespace NestedPath.Path

open Reader

/-- The number of elements of the list that a path is stored as. -/
def readLength : Reader Nat := fun input =>
  match arrayHeader "context" input with
  | .error (.marker _ _) rest => .error .notAPath rest
  | result => result

def readPayload (limits : ReadLimits) (id : UInt32) : Reader Segment.Payload := do
  if id = Segment.Kind.allChildren.id then
    return .filter ⟨← object limits.depth "context filter"⟩
  else return .literal (← Value.read limits.depth)

def readSegment (limits : ReadLimits) : Reader Segment := do
  let n ← number "context id"
  if n.toInt < 0 ∨ 0x100000000 ≤ n.toInt then throw (.segmentId n)
  let id := UInt32.ofNat n.toInt.toNat
  -- the payload is read before it is known to fit, so its faults come first
  match Segment.ofParts? id (← readPayload limits id) with
  | some s => return s
  | none => throw (.segmentId n)

/-- A path and nothing after it. -/
def read (limits : ReadLimits) : Reader Path := do
  let n ← readLength
  if n = 0 then throw .emptyPath
  if n % 2 ≠ 0 then throw (.oddLength n)
  if limits.segments < n / 2 then throw (.tooLong "context" (n / 2) limits.segments)
  let p ← times (readSegment limits) (n / 2) []
  atEnd
  return p

def decode (limits : ReadLimits) (bs : Bytes) : Except DecodeError Path := (read limits).runOn bs

end NestedPath.Path
