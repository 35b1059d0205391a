import NestedPath.Error
import NestedPath.Wire.Marker

/-!
Reading packed bytes from the front.

A reader works on the bytes that are left. When it fails, the bytes that it had read stay read;
a read of a fixed number of bytes that are not all there takes none.
-/

namespace NestedPath

abbrev Reader := EStateM DecodeError Bytes

namespace Reader

/-- The next byte, which is not taken. -/
def peek (reading : String) : Reader UInt8
  | [] => .error (.endOfInput reading) []
  | b :: rest => .ok b (b :: rest)

def byte (reading : String) : Reader UInt8
  | [] => .error (.endOfInput reading) []
  | b :: rest => .ok b rest

def bytes (n : Nat) (reading : String) : Reader Bytes := fun input =>
  match input.split? n with
  | some (front, rest) => .ok front rest
  | none => .error (.endOfInput reading) input

/-- A big-endian numeral of the given width. -/
def uint (width : Nat) (reading : String) : Reader Nat := do
  return ofBigEndian (← bytes width reading)

/-- A big-endian numeral of the given width in two's complement. -/
def int (width : Nat) (reading : String) : Reader Int64 := do
  return Int64.ofInt (Int.bmod (← uint width reading) (1 <<< (8 * width)))

/--
The number behind a marker, if the marker is that of a number. Unsigned numbers from `2 ^ 63` on
come out negative.
-/
def numberAfter? (marker : Marker) (reading : String) : Option (Reader Int64) :=
  match marker with
  | .fixint n => some (pure n)
  | .uint width => some (Int64.ofNat <$> uint width reading)
  | .int width => some (int width reading)
  | _ => none

/-- A number in any of its forms. -/
def number (reading : String) : Reader Int64 := do
  let b ← byte reading
  match numberAfter? (Marker.ofByte b) reading with
  | some rest => rest
  | none => throw (.marker b reading)

/-- The header of a list; its count. -/
def arrayHeader (reading : String) : Reader Nat := do
  let b ← byte reading
  match Marker.ofByte b with
  | .fixarray n => return n
  | .array width => uint width reading
  | _ => throw (.marker b reading)

def atEnd : Reader Unit := fun rest =>
  if rest.isEmpty then .ok () rest else .error (.trailing rest.length) rest

/-- The same reader so many times, for its results in order, behind the results so far. -/
def times {α : Type} (one : Reader α) : Nat → List α → Reader (List α)
  | 0, done => return done.reverse
  | n + 1, done => do
    let a ← one
    times one n (a :: done)

def skipTimes (one : Reader Unit) : Nat → Reader Unit
  | 0 => return ()
  | n + 1 => do
    one
    skipTimes one n

def taken (r : Reader Unit) : Reader Bytes := fun input =>
  match r input with
  | .ok () rest => .ok (input.take (input.length - rest.length)) rest
  | .error e rest => .error e rest

/-- The result of reading the whole of some bytes. -/
def runOn {α : Type} (r : Reader α) (input : Bytes) : Except DecodeError α :=
  match r input with
  | .ok a _ => .ok a
  | .error e _ => .error e

end Reader

end NestedPath
