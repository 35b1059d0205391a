import NestedPath.Bytes
import NestedPath.Double.Basic

/-!
Values: the literals that paths and expressions carry.

A map holds its entries in a list; `ValueMap` keeps that list sorted by key.
-/

namespace NestedPath

/-- The type byte in front of a string-like body, and of a whole payload. -/
inductive ParticleType where
  | null | integer | double | string | blob | bool | map | list | geo
  deriving DecidableEq

namespace ParticleType

def toByte : ParticleType → UInt8
  | null => 0
  | integer => 1
  | double => 2
  | string => 3
  | blob => 4
  | bool => 17
  | map => 19
  | list => 20
  | geo => 23

def ofByte? (b : UInt8) : Option ParticleType :=
  [null, integer, double, string, blob, bool, map, list, geo].find? (·.toByte == b)

theorem ofByte?_toByte (t : ParticleType) : ofByte? t.toByte = some t := by
  cases t <;> rfl

end ParticleType

inductive Value where
  | nil
  | bool (b : Bool)
  | int (n : Int64)
  | float (d : Double)
  | string (s : String)
  | blob (bytes : Bytes)
  /-- The text of a GeoJSON document. -/
  | geo (json : String)
  | list (items : List Value)
  | map (entries : List (Value × Value))

instance : Inhabited Value := ⟨.nil⟩

namespace Value

def ofInt32 (n : Int32) : Value := .int n.toInt64

def ofUInt32 (n : UInt32) : Value := .int (Int64.ofNat n.toNat)

end Value

end NestedPath
