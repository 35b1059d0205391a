import NestedPath.Double.Basic
import NestedPath.Value.Basic

/-!
The items that packed bytes are written from.

An item is a scalar, the header of a list or map, or an object packed before. Headers are written
in the shortest of their forms, and so are numbers. An object is a run of items: a header and then
as many objects as it counts.
-/

namespace NestedPath

inductive Item where
  /-- The header of a list: this many objects follow. -/
  | array (count : Nat)
  /-- The header of a map: this many pairs of objects follow. -/
  | map (count : Nat)
  | number (n : Int64)
  | double (d : Double)
  | bool (b : Bool)
  | nil
  /-- A text without a type byte. -/
  | text (s : String)
  /-- A body behind its type byte. -/
  | particle (type : UInt8) (body : Bytes)
  /-- An object that is packed already. -/
  | packed (bytes : Bytes)
  /-- An extension with no data. -/
  | ext (type : UInt8)
  deriving DecidableEq

namespace Item

/-- A natural number below `2 ^ 63`. -/
def nat (n : Nat) : Item := .number (Int64.ofNat n)

/-- A count in the low bits of a marker, or in two or four bytes behind one. -/
def countHeader (short wide2 wide4 : UInt8) (n : Nat) : Bytes :=
  if n < 16 then [short + UInt8.ofNat n]
  else if n < 0x10000 then wide2 :: bigEndian 2 n
  else wide4 :: bigEndian 4 n

def sizeHeader (n : Nat) : Bytes :=
  if n < 32 then [0xa0 + UInt8.ofNat n]
  else if n < 0x100 then 0xd9 :: bigEndian 1 n
  else if n < 0x10000 then 0xda :: bigEndian 2 n
  else 0xdb :: bigEndian 4 n

/-- A number in its shortest form. -/
def numberBytes (n : Int64) : Bytes :=
  let i := n.toInt
  let bits := n.toUInt64.toNat
  if 0 ≤ i then
    if i < 0x80 then bigEndian 1 bits
    else if i < 0x100 then 0xcc :: bigEndian 1 bits
    else if i < 0x10000 then 0xcd :: bigEndian 2 bits
    else if i < 0x100000000 then 0xce :: bigEndian 4 bits
    else 0xcf :: bigEndian 8 bits
  else
    if -0x20 ≤ i then bigEndian 1 bits
    else if -0x80 ≤ i then 0xd0 :: bigEndian 1 bits
    else if -0x8000 ≤ i then 0xd1 :: bigEndian 2 bits
    else if -0x80000000 ≤ i then 0xd2 :: bigEndian 4 bits
    else 0xd3 :: bigEndian 8 bits

def bytes : Item → Bytes
  | array n => countHeader 0x90 0xdc 0xdd n
  | map n => countHeader 0x80 0xde 0xdf n
  | number n => numberBytes n
  | double d => 0xcb :: bigEndian 8 d.bits.toNat
  | bool b => [if b then 0xc3 else 0xc2]
  | nil => [0xc0]
  | text s => sizeHeader s.utf8ByteSize ++ utf8 s
  | particle type body => sizeHeader (body.length + 1) ++ type :: body
  | packed bs => bs
  | ext type => [0xc7, 0, type]

/-- The number of objects that belong to the item and follow it. -/
def children : Item → Nat
  | array n => n
  | map n => 2 * n
  | _ => 0

def pack (items : List Item) : Bytes := items.flatMap bytes

end Item

end NestedPath
