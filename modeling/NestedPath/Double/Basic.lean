/-!
Binary64 numbers as their 64 bits.

No arithmetic is done on them: they are stored, compared and shown. Two doubles are equal when
their bits are, so every NaN equals itself and the two zeros differ.
-/

namespace NestedPath

structure Double where
  bits : UInt64
  deriving DecidableEq

namespace Double

def negative (d : Double) : Bool := 0x8000000000000000 ≤ d.bits.toNat

def exponent (d : Double) : Nat := d.bits.toNat >>> 52 % 0x800

def fraction (d : Double) : Nat := d.bits.toNat % 0x10000000000000

/--
The place in the total order: negative NaNs, negative numbers, the two zeros, positive numbers,
positive NaNs. Below the sign bit the bits order magnitudes, and negative ones go downwards.
-/
def orderKey (d : Double) : Int :=
  let magnitude := d.bits.toNat % 0x8000000000000000
  if d.negative then Int.negSucc magnitude else Int.ofNat magnitude

instance : Ord Double := ⟨fun a b => compare a.orderKey b.orderKey⟩

/-- The fields of the double that has the value of the binary32 number with these bits. -/
def widenedMagnitude (exponent fraction : Nat) : Nat :=
  if exponent = 255 then
    -- an infinity stays one; a NaN keeps its payload and becomes quiet
    2047 <<< 52 + (if fraction = 0 then 0 else 1 <<< 51 ||| fraction <<< 29)
  else if exponent = 0 then
    -- subnormal numbers have room for a leading one in the wider format
    if fraction = 0 then 0
    else (fraction.log2 + 874) <<< 52 + (fraction - 1 <<< fraction.log2) <<< (52 - fraction.log2)
  else (exponent + 896) <<< 52 + fraction <<< 29

/-- The exact value of a binary32 number. -/
def ofSingle (bits : UInt32) : Double :=
  let n := bits.toNat
  ⟨UInt64.ofNat (n >>> 31 <<< 63 + widenedMagnitude (n >>> 23 % 0x100) (n % 1 <<< 23))⟩

end Double

end NestedPath
