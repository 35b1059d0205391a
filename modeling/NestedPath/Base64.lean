import NestedPath.Bytes
import NestedPath.Text.Blank

/-!
Base64 text in the standard alphabet, padded with `=`.

Three bytes are four digits of six bits. Text is read as UTF-8 bytes, with blanks at both ends left
out, and every fault is reported with its place: in the digits before the last group first, then in
the last group.
-/

namespace NestedPath.Base64

inductive Error where
  /-- A byte where no such byte may stand. -/
  | symbol (byte : UInt8) (offset : Nat)
  /-- A last group with fewer than two digits. -/
  | length (n : Nat)
  /-- A last group that is not filled up. -/
  | padding
  /-- A last digit with bits that belong to no byte. -/
  | lastSymbol (byte : UInt8) (offset : Nat)
  deriving DecidableEq

def Error.message : Error → String
  | symbol byte offset => s!"Invalid symbol {byte}, offset {offset}."
  | length n => s!"Invalid input length: {n}"
  | padding => "Invalid padding"
  | lastSymbol byte offset => s!"Invalid last symbol {byte}, offset {offset}."

/-- The character of a digit below sixty-four. -/
def digit (n : Nat) : Char :=
  if n < 26 then Char.ofNat (65 + n)
  else if n < 52 then Char.ofNat (71 + n)
  else if n < 62 then Char.ofNat (n - 4)
  else if n = 62 then '+' else '/'

/-- The digit that a byte stands for. -/
def value? (b : UInt8) : Option Nat :=
  let n := b.toNat
  if 65 ≤ n && n ≤ 90 then some (n - 65)
  else if 97 ≤ n && n ≤ 122 then some (n - 71)
  else if 48 ≤ n && n ≤ 57 then some (n + 4)
  else if n = 43 then some 62
  else if n = 47 then some 63
  else none

def pad : UInt8 := 61

/-! ### Writing -/

/-- The four characters of up to three bytes. -/
def group : Bytes → List Char
  | [a, b, c] =>
    let n := (a.toNat * 256 + b.toNat) * 256 + c.toNat
    [digit (n / 0x40000), digit (n / 0x1000 % 64), digit (n / 64 % 64), digit (n % 64)]
  | [a, b] =>
    let n := a.toNat * 256 + b.toNat
    [digit (n / 0x400), digit (n / 16 % 64), digit (n % 16 * 4), '=']
  | [a] => [digit (a.toNat / 4), digit (a.toNat % 4 * 16), '=', '=']
  | _ => []

def encode (bs : Bytes) : String := String.ofList ((threes bs).flatMap group)

/-! ### Reading -/

/-- The digits of bytes that start at an offset; the first byte that is none is the fault. -/
def digits (offset : Nat) (bs : Bytes) : Except Error (List Nat) :=
  (bs.zipIdx offset).mapM fun (b, i) =>
    match value? b with
    | some d => .ok d
    | none => .error (.symbol b i)

/-- The bytes of two, three or four digits. Bits beyond the last whole byte are left out. -/
def ofDigits : List Nat → Bytes
  | [p, q, r, s] =>
    let n := ((p * 64 + q) * 64 + r) * 64 + s
    [UInt8.ofNat (n / 65536), UInt8.ofNat (n / 256), UInt8.ofNat n]
  | [p, q, r] =>
    let n := (p * 64 + q) * 64 + r
    [UInt8.ofNat (n / 1024), UInt8.ofNat (n / 4)]
  | [p, q] => [UInt8.ofNat ((p * 64 + q) / 16)]
  | _ => []

/-- The bits of the last digit that belong to no byte. -/
def surplus : List Nat → Nat
  | [_, _, r] => r % 4
  | [_, q] => q % 16
  | _ => 0

/--
The digits in front of the padding of the last group, which starts at `start`. Padding stands at
the third place at the earliest, and nothing but padding follows it.
-/
def lastDigits (start : Nat) (bs : Bytes) : Except Error (List Nat) :=
  let front := bs.takeWhile (· != pad)
  let back := bs.dropWhile (· != pad)
  do
    let ds ← digits start front
    if back.isEmpty then return ds
    let first := start + front.length
    if front.length < 2 || back.any (· != pad) then throw (.symbol pad first)
    return ds

/-- The bytes of the last group, which has one to four bytes. -/
def lastGroup (start : Nat) (bs : Bytes) : Except Error Bytes := do
  let ds ← lastDigits start bs
  if ds.length < 2 then throw (.length (start + ds.length))
  if bs.length ≠ 4 then throw .padding
  if surplus ds ≠ 0 then
    throw (.lastSymbol (bs.getD (ds.length - 1) 0) (start + ds.length - 1))
  return ofDigits ds

/-- A lone byte behind whole groups that is neither a digit nor padding. -/
def strayByte? (bs : Bytes) : Option UInt8 :=
  if bs.length % 4 = 1 then bs.getLast?.filter fun b => (value? b).isNone && b != pad else none

def decodeBytes (bs : Bytes) : Except Error Bytes :=
  match strayByte? bs with
  | some b => throw (.symbol b (bs.length - 1))
  | none => do
    if bs.isEmpty then return []
    -- the last group is never empty, even where all groups are whole
    let start := (bs.length - 1) / 4 * 4
    let ds ← digits 0 (bs.take start)
    let final ← lastGroup start (bs.drop start)
    return (fours ds).flatMap ofDigits ++ final

/-- The bytes that a text stands for, blanks around it left out. -/
def decode (text : String) : Except Error Bytes :=
  decodeBytes (utf8 (String.ofList (trimBlank text.toList)))

end NestedPath.Base64
