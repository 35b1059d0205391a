import NestedPath.Flags
import NestedPath.Path.Basic

/-!
Expressions: the filters and transforms that are evaluated where the data is.
-/

namespace NestedPath

inductive ValueKind where
  | nil | bool | int | string | list | map | blob | float | geo | hll
  deriving DecidableEq

namespace ValueKind

def code : ValueKind → Nat
  | nil => 0
  | bool => 1
  | int => 2
  | string => 3
  | list => 4
  | map => 5
  | blob => 6
  | float => 7
  | geo => 8
  | hll => 9

end ValueKind

/-- What a loop variable reads of the element that a path visits. -/
inductive LoopPart where
  /-- The key of a map entry. -/
  | key
  /-- The value of a map entry, or the list element. -/
  | value
  /-- The place among its siblings. -/
  | index
  deriving DecidableEq

def LoopPart.code : LoopPart → Nat
  | key => 0
  | value => 1
  | index => 2

inductive ArithOp where
  | add | sub | mul | div
  deriving DecidableEq

inductive Comparison where
  | eq | ne | gt | ge | lt | le
  deriving DecidableEq

inductive Connective where
  | and | or
  deriving DecidableEq

inductive MapReturn where
  | none | index | reverseIndex | rank | reverseRank | count | key | value | keyValue | exists
  deriving DecidableEq

def MapReturn.code : MapReturn → Nat
  | none => 0
  | index => 1
  | reverseIndex => 2
  | rank => 3
  | reverseRank => 4
  | count => 5
  | key => 6
  | value => 7
  | keyValue => 8
  | «exists» => 13

inductive Expr where
  | literal (value : Value)
  /-- A part of the element that is visited. -/
  | loopVar (part : LoopPart) (kind : ValueKind)
  /-- A bin of the record, read as a kind. -/
  | bin (name : String) (kind : ValueKind)
  | arith (op : ArithOp) (lhs rhs : Expr)
  | compare (op : Comparison) (lhs rhs : Expr)
  | connect (op : Connective) (operands : List Expr)
  | not (operand : Expr)
  | regex (pattern : String) (flags : Flags .regex) (subject : Expr)
  /-- The subject lies within the region, or holds it. -/
  | geo (subject region : Expr)
  /-- The entry of a key, in the map itself or in one that a path leads to. -/
  | mapGet (returns : MapReturn) (kind : ValueKind) (key map : Expr) (path : Path)
  /-- The size of the list itself or of one that a path leads to. -/
  | listSize (list : Expr) (path : Path)
  /-- A packed call on a bin. -/
  | call (returns : ValueKind) (target : UInt32) (payload : Bytes) (bin : Expr)
  /-- As the result of a transform, the element is removed. -/
  | remove

namespace Expr

instance : Inhabited Expr := ⟨.remove⟩

/-- Two expressions are equal when they are built alike from equal values. -/
protected def beq : Expr → Expr → Bool
  | literal v, literal w => v == w
  | loopVar p k, loopVar q l => p == q && k == l
  | bin m k, bin n l => m == n && k == l
  | arith o a b, arith p c d => o == p && a.beq c && b.beq d
  | compare o a b, compare p c d => o == p && a.beq c && b.beq d
  | connect o as, connect p bs => o == p && beqAll as bs
  | not a, not b => a.beq b
  | regex m f a, regex n g b => m == n && f == g && a.beq b
  | geo a b, geo c d => a.beq c && b.beq d
  | mapGet r k a b p, mapGet s l c d q => r == s && k == l && a.beq c && b.beq d && p == q
  | listSize a p, listSize b q => a.beq b && p == q
  | call k t x a, call l u y b => k == l && t == u && x == y && a.beq b
  | remove, remove => true
  | _, _ => false
where
  beqAll : List Expr → List Expr → Bool
    | [], [] => true
    | a :: as, b :: bs => a.beq b && beqAll as bs
    | _, _ => false

instance : BEq Expr := ⟨Expr.beq⟩

end Expr

structure TooFewOperands where
  op : Connective
  deriving DecidableEq

def TooFewOperands.message : TooFewOperands → String
  | ⟨.and⟩ => "And needs at least two operands"
  | ⟨.or⟩ => "Or needs at least two operands"

/-- Two or more operands joined. -/
def Connective.join (op : Connective) (operands : List Expr) : Except TooFewOperands Expr :=
  if operands.length < 2 then .error ⟨op⟩ else .ok (.connect op operands)

end NestedPath
