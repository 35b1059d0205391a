/-!
The first byte of a packed object.

It tells the kind of the object and either holds its number, size or count, or says how wide the
numeral is that follows and holds it.
-/

namespace NestedPath

inductive Marker where
  /-- A number within the byte itself. -/
  | fixint (n : Int64)
  | fixmap (count : Nat)
  | fixarray (count : Nat)
  | fixstr (size : Nat)
  | nil
  /-- The one byte that starts nothing. -/
  | reserved
  | bool (b : Bool)
  | bin (width : Nat)
  | ext (width : Nat)
  | float32
  | float64
  | uint (width : Nat)
  | int (width : Nat)
  /-- An extension of fixed size, its type byte not counted. -/
  | fixext (size : Nat)
  | str (width : Nat)
  | array (width : Nat)
  | map (width : Nat)
  deriving DecidableEq

namespace Marker

/-- The markers from `0xc0` to `0xdf`. -/
def ofHighByte : Nat → Marker
  | 0xc0 => nil
  | 0xc2 => bool false
  | 0xc3 => bool true
  | 0xc4 => bin 1
  | 0xc5 => bin 2
  | 0xc6 => bin 4
  | 0xc7 => ext 1
  | 0xc8 => ext 2
  | 0xc9 => ext 4
  | 0xca => float32
  | 0xcb => float64
  | 0xcc => uint 1
  | 0xcd => uint 2
  | 0xce => uint 4
  | 0xcf => uint 8
  | 0xd0 => int 1
  | 0xd1 => int 2
  | 0xd2 => int 4
  | 0xd3 => int 8
  | 0xd4 => fixext 1
  | 0xd5 => fixext 2
  | 0xd6 => fixext 4
  | 0xd7 => fixext 8
  | 0xd8 => fixext 16
  | 0xd9 => str 1
  | 0xda => str 2
  | 0xdb => str 4
  | 0xdc => array 2
  | 0xdd => array 4
  | 0xde => map 2
  | 0xdf => map 4
  | _ => reserved

def ofByte (b : UInt8) : Marker :=
  let n := b.toNat
  if n < 0x80 then fixint (Int64.ofNat n)
  else if n < 0x90 then fixmap (n - 0x80)
  else if n < 0xa0 then fixarray (n - 0x90)
  else if n < 0xc0 then fixstr (n - 0xa0)
  else if n < 0xe0 then ofHighByte n
  else fixint (Int64.ofInt (n - 0x100))

def isExt : Marker → Bool
  | ext _ | fixext _ => true
  | _ => false

end Marker

end NestedPath
