import NestedPath.Expr.Compile
import NestedPath.Operation.Basic

/-!
Operations built from paths and programs, and the same payloads as parts of expressions.

A selection is the list of its code, the path and the flags; a modification has one more element,
the transform. The bit that tells them apart is set here and not by the caller.
-/

namespace NestedPath

/-- The code that selections and modifications share. -/
def selectCode : Nat := 0xfe

def selectPayload (flags : Flags .select) (path : Path) : Except EncodeError Bytes := do
  path.check .select
  return Item.pack
    ([.array 3, .nat selectCode] ++ path.items 0 ++ [.nat flags.selectWord.toNat])

/-- The payload of a modification by a transform that is given as items. -/
def modifyPayload (flags : Flags .modify) (transform : List Item) (path : Path) :
    Except EncodeError Bytes := do
  path.check .modify
  return Item.pack
    ([.array 4, .nat selectCode] ++ path.items 0 ++ [.nat flags.modifyWord.toNat] ++ transform)

def evalPayload (program : Program) (bits : UInt32) : Bytes :=
  Item.pack [.array 2, .packed program.bytes, .nat bits.toNat]

namespace Operation

/-- Reads the elements of a bin that a path leads to. -/
def select (bin : String) (flags : Flags .select) (path : Path) : Except EncodeError Operation :=
  return ⟨bin, .pathRead, ← selectPayload flags path⟩

/-- Replaces each element of a bin that a path leads to by what a program makes of it. -/
def modify (bin : String) (flags : Flags .modify) (transform : Program) (path : Path) :
    Except EncodeError Operation :=
  return ⟨bin, .pathModify, ← modifyPayload flags [.packed transform.bytes] path⟩

/-- Evaluates a program and returns the result under a name. -/
def evalRead (name : String) (program : Program) (flags : Flags .evalRead) : Operation :=
  ⟨name, .evalRead, evalPayload program flags.bits⟩

/-- Evaluates a program and stores the result in a bin. -/
def evalWrite (bin : String) (program : Program) (flags : Flags .evalWrite) : Operation :=
  ⟨bin, .evalModify, evalPayload program flags.bits⟩

end Operation

namespace Expr

/-- The bit of a call that marks it as writing to its bin. -/
def modifyBit : UInt32 := 0x40

def select (returns : ValueKind) (flags : Flags .select) (bin : Expr) (path : Path) :
    Except EncodeError Expr :=
  return .call returns collections (← selectPayload flags path) bin

/-- A modification as an expression. The transform is compiled into the call. -/
def modify (returns : ValueKind) (flags : Flags .modify) (transform bin : Expr) (path : Path) :
    Except EncodeError Expr :=
  return .call returns (collections ||| modifyBit) (← modifyPayload flags transform.items path) bin

end Expr

end NestedPath
