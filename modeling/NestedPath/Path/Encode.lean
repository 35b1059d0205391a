import NestedPath.Path.Basic
import NestedPath.Value.Bounds
import NestedPath.Value.Pack

/-!
Paths in the wire format.

A path is a flat list: the id and the payload of each segment in turn. A flag may be merged into
the id of the last segment. A path is checked before it is written, so that it can be read back
under the default limits.
-/

namespace NestedPath

/-- Fails unless the program is one packed object within the limit of depth. -/
def Program.bound (p : Program) : Except EncodeError Unit :=
  match Reader.skip Limits.depth "context filter" p.bytes with
  | .ok () [] => .ok ()
  | .error (.tooDeep max) _ => .error (.tooDeep max)
  | _ => .error .malformedProgram

namespace Segment

/-- Fails if the payload could not be read back. -/
def bound (s : Segment) : Except EncodeError Unit :=
  match s.payload with
  | .literal v => v.bound
  | .filter p => p.bound

def Payload.items : Payload → List Item
  | literal v => v.items
  | filter p => [.packed p.bytes]

/-- The id, with a flag merged into it, and the payload. -/
def items (flag : UInt32) (s : Segment) : List Item :=
  .nat (s.id ||| flag).toNat :: s.payload.items

end Segment

namespace Path

/-- Fails if the path is empty or could not be read back. -/
def check (task : Task) (p : Path) : Except EncodeError Unit :=
  if p.isEmpty then .error (.emptyPath task)
  else if Limits.segments < p.length then .error (.tooLong "context" p.length Limits.segments)
  else p.forM Segment.bound

/-- The items of a path: one object. The flag goes to the last segment alone. -/
def items (flag : UInt32) (p : Path) : List Item :=
  .array (2 * p.length) ::
    (p.dropLast.flatMap (Segment.items 0) ++ p.getLast?.toList.flatMap (Segment.items flag))

/-- The operation code in front of a path and a command. -/
def frameCode : Nat := 0xff

/--
A path in front of a command: a list of the code, the path and a list that holds the command and
its arguments. The arguments are still to be written.
-/
def frameItems (flag : UInt32) (command : Int64) (args : Nat) (p : Path) : List Item :=
  [.array 3, .nat frameCode] ++ Path.items flag p ++ [.array (args + 1), .number command]

/-- The items of a path, once it is checked. -/
def encode (flag : UInt32) (p : Path) : Except EncodeError (List Item) := do
  check .encode p
  return Path.items flag p

/-- The items of a path in front of a command, once it is checked. -/
def frame (flag : UInt32) (command : Int64) (args : Nat) (p : Path) :
    Except EncodeError (List Item) := do
  check .frame p
  return frameItems flag command args p

end Path

namespace Writer

/-- Writes items that may be refused; then nothing is written. -/
def attempt (w : Writer) (items : Except EncodeError (List Item)) :
    Except EncodeError Unit × Writer :=
  match items with
  | .ok items => (.ok (), w.write items)
  | .error e => (.error e, w)

def writePath (w : Writer) (flag : UInt32) (p : Path) : Except EncodeError Unit × Writer :=
  w.attempt (Path.encode flag p)

/-- Writes a path in front of a command whose arguments are still to be written. -/
def writeFrame (w : Writer) (flag : UInt32) (command : Int64) (args : Nat) (p : Path) :
    Except EncodeError Unit × Writer :=
  w.attempt (Path.frame flag command args p)

end Writer

end NestedPath
