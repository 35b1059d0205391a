import NestedPath.Limits
import NestedPath.Value.Map
import NestedPath.Wire.Object

/-!
Reading values.

More forms are read than are written: numbers of any width, binary32 numbers, blobs without a type
byte and maps without a mark of their order or in another order. A count that the bytes left cannot
hold is refused before anything is read.
-/

namespace NestedPath.Value

open Reader

def limitLength (field : String) (length max : Nat) : Reader Unit :=
  if max < length then throw (.tooLong field length max) else return ()

/-- Fails if the bytes left are too few for so many elements of at least `size` bytes. -/
def limitCount (field : String) (count size : Nat) : Reader Unit := fun rest =>
  if rest.atLeast (count * size) then .ok () rest
  else .error (.tooLong field count (rest.length / size)) rest

def textOf (field : String) (body : Bytes) : Reader String :=
  match ofUtf8? body with
  | some s => return s
  | none => throw (.utf8 field)

/-- A body of so many bytes, the first of which is its type. An empty body is the empty text. -/
def readParticle (size : Nat) : Reader Value := do
  limitLength "string" size Limits.body
  if size = 0 then return .string ""
  let type ← byte "particle type"
  let body ← bytes (size - 1) "string"
  match ParticleType.ofByte? type with
  | some .string => return .string (← textOf "string" body)
  | some .geo => return .geo (← textOf "geojson" body)
  | some .blob => return .blob body
  | _ => throw (.particle type)

/-- A blob without a type byte. -/
def readBlob (size : Nat) : Reader Value := do
  limitLength "bytes" size Limits.body
  return .blob (← bytes size "bytes")

def readList (element : Reader Value) (count : Nat) : Reader Value := do
  limitLength "list" count Limits.items
  limitCount "list" count 1
  return .list (← times element count [])

/-- The order of keys from the last to the first. -/
def descending (a b : Value) : Ordering := b.compare a

/-- So many entries, added to those read before, which are in descending order. -/
def readEntries (element : Reader Value) : Nat → List (Value × Value) → Reader Value
  | 0, es => return .map es.reverse
  | n + 1, es => do
    let k ← element
    if (Assoc.find? descending k es).isSome then throw .duplicateKey
    let v ← element
    readEntries element n (Assoc.insert descending k v es)

/-- The first entry of a map says how the map is ordered; it is no entry of the value. -/
def startsWithOrder : Reader Bool := do
  return (Marker.ofByte (← peek "map key")).isExt

/-- A map of so many entries; the object beside the mark of its order may be `max` levels deep. -/
def readMap (element : Reader Value) (max count : Nat) : Reader Value := do
  limitLength "map" count Limits.items
  limitCount "map" count 2
  if count = 0 then return .map []
  if ← startsWithOrder then
    -- the levels of the object beside the mark are counted afresh
    skip 0 "map order"
    skip max "map order"
    readEntries element (count - 1) []
  else readEntries element count []

/-- A value that is at most `room - 1` levels deep. -/
def readWithin (max : Nat) : Nat → Reader Value
  | 0 => throw (.tooDeep max)
  | room + 1 => do
    let b ← byte "value"
    match Marker.ofByte b with
    | .fixint n => return .int n
    | .uint width => return .int (Int64.ofNat (← uint width "value"))
    | .int width => return .int (← Reader.int width "value")
    | .nil => return .nil
    | .bool b => return .bool b
    | .float32 => return .float (Double.ofSingle (UInt32.ofNat (← uint 4 "float32")))
    | .float64 => return .float ⟨UInt64.ofNat (← uint 8 "float64")⟩
    | .fixstr size => readParticle size
    | .str width => readParticle (← uint width "string length")
    | .bin width => readBlob (← uint width "bytes length")
    | .fixarray count => readList (readWithin max room) count
    | .array width => readList (readWithin max room) (← uint width "list length")
    | .fixmap count => readMap (readWithin max room) max count
    | .map width => readMap (readWithin max room) max (← uint width "map length")
    | .ext _ | .fixext _ | .reserved => throw (.marker b "value")

/-- A value that is at most `max` levels deep. -/
def read (max : Nat) : Reader Value := readWithin max (max + 1)

end NestedPath.Value
