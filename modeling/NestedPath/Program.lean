import NestedPath.Limits
import NestedPath.Wire.Object

/-!
Compiled expressions.
-/

namespace NestedPath

/-- The packed bytes of one expression. -/
structure Program where
  bytes : Bytes
  deriving DecidableEq

namespace Program

instance : BEq Program := ⟨fun p q => p.bytes == q.bytes⟩

instance : LawfulBEq Program where
  rfl := beq_self_eq_true (_ : Bytes)
  eq_of_beq h := congrArg mk (eq_of_beq (α := Bytes) h)

/-- The program that is true of everything. -/
def always : Program := ⟨[0xc3]⟩

/-- A program from stored bytes, which must be one object within the limit of depth. -/
def ofBytes? (bs : Bytes) : Except DecodeError Program :=
  Reader.runOn (do
    Reader.skip Limits.depth "expression"
    Reader.atEnd
    return ⟨bs⟩) bs

end Program

end NestedPath
