import NestedPath.Bytes

/-!
Lower-case hexadecimal text.
-/

namespace NestedPath

/-- The lower-case digit of a number below sixteen. -/
def hexDigit (n : Nat) : Char :=
  if n < 10 then Char.ofNat (48 + n) else Char.ofNat (87 + n)

def hexByte (b : UInt8) : String :=
  String.ofList [hexDigit (b.toNat / 16), hexDigit (b.toNat % 16)]

def hex (bs : Bytes) : String :=
  bs.foldl (fun s b => (s.push (hexDigit (b.toNat / 16))).push (hexDigit (b.toNat % 16))) ""

/-- A number with at least two digits. -/
def hexNumber (n : Nat) : String :=
  let digits := String.ofList (Nat.toDigits 16 n)
  if n < 16 then "0" ++ digits else digits

end NestedPath
