import NestedPath.Expr.Basic
import NestedPath.Path.Encode

/-!
Compilation of expressions.

An expression is written in front-to-back order: a list of the operation code and the operands.
Literals stand for themselves, except lists, which would read as operations and are quoted.
-/

namespace NestedPath

def ArithOp.code : ArithOp → Nat
  | add => 20
  | sub => 21
  | mul => 22
  | div => 23

def Comparison.code : Comparison → Nat
  | eq => 1
  | ne => 2
  | gt => 3
  | ge => 4
  | lt => 5
  | le => 6

def Connective.code : Connective → Nat
  | and => 16
  | or => 17

/-- The kind that a loop variable is written with. A place among siblings is always a number. -/
def LoopPart.writtenKind : LoopPart → ValueKind → ValueKind
  | index, _ => .int
  | _, kind => kind

namespace Expr

def literalItems : Value → List Item
  | .list vs => [.array 2, .nat 126] ++ (Value.list vs).items
  | v => v.items

/-- The module that commands on lists and maps belong to. -/
def collections : UInt32 := 0

/-- A packed call on a bin whose items follow. -/
def callHeader (returns : ValueKind) (target : UInt32) (payload : Bytes) : List Item :=
  [.array 5, .nat 127, .nat returns.code, .nat target.toNat, .packed payload]

/-- The start of a command, behind a path unless that is empty. -/
def commandItems (path : Path) (command : Int64) (args : Nat) : List Item :=
  if path.isEmpty then [.array (args + 1), .number command]
  else Path.frameItems 0 command args path

/-- The items of an expression: one object. -/
def items : Expr → List Item
  | literal v => literalItems v
  | loopVar part kind =>
    [.array 3, .nat 122, .nat (part.writtenKind kind).code, .nat part.code]
  | bin name kind => [.array 3, .nat 81, .nat kind.code, .text name]
  | arith op a b => [.array 3, .nat op.code] ++ a.items ++ b.items
  | compare op a b => [.array 3, .nat op.code] ++ a.items ++ b.items
  | connect op es => [.array (es.length + 1), .nat op.code] ++ es.flatMap fun e => e.items
  | not a => [.array 2, .nat 18] ++ a.items
  | regex pattern flags a =>
    [.array 4, .nat 7, .nat flags.bits.toNat, .text pattern] ++ a.items
  | geo a b => [.array 3, .nat 8] ++ a.items ++ b.items
  | mapGet returns kind key map path =>
    callHeader kind collections
      (Item.pack (commandItems path 97 2 ++ [.nat returns.code] ++ key.items)) ++ map.items
  | listSize list path =>
    callHeader .int collections (Item.pack (commandItems path 16 0)) ++ list.items
  | call returns target payload e => callHeader returns target payload ++ e.items
  | remove => [.array 1, .nat 100]

def compile (e : Expr) : Program := ⟨Item.pack e.items⟩

end Expr

/-- The children that an expression is true of. -/
def Segment.childrenWhere (test : Expr) : Segment := .children test.compile

def PathBuilder.childrenWhere (b : PathBuilder) (test : Expr) : PathBuilder :=
  b.add (.childrenWhere test)

end NestedPath
