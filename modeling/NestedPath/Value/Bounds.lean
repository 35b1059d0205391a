import NestedPath.Error
import NestedPath.Limits
import NestedPath.Value.Map

/-!
Values that are small enough to be read back under the default limits.
-/

namespace NestedPath.Value

/-- Fails if a length is beyond its limit. -/
def boundLength (field : String) (length max : Nat) : Except EncodeError Unit :=
  if max < length then .error (.tooLong field length max) else .ok ()

/--
The sizes within a value, with `room` levels left for the value itself. A body counts its type
byte and a map the entry that marks its order.
-/
def boundWithin : Nat → Value → Except EncodeError Unit
  | 0, _ => .error (.tooDeep Limits.depth)
  | _ + 1, nil | _ + 1, bool _ | _ + 1, int _ | _ + 1, float _ => .ok ()
  | _ + 1, string s | _ + 1, geo s => boundLength "string" (s.utf8ByteSize + 1) Limits.body
  | _ + 1, blob bytes => boundLength "bytes" (bytes.length + 1) Limits.body
  | room + 1, list vs => do
    boundLength "list" vs.length Limits.items
    vs.forM fun v => boundWithin room v
  | room + 1, map es => do
    boundLength "map" (es.length + 1) Limits.items
    es.forM fun e => do
      boundWithin room e.1
      boundWithin room e.2

/-- The first limit, from the outside in, that a value goes beyond. -/
def bound (v : Value) : Except EncodeError Unit := v.boundWithin (Limits.depth + 1)

end NestedPath.Value
