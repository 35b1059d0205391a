import NestedPath.Segment

/-!
Paths into nested lists and maps: their segments, the outermost first.
-/

namespace NestedPath

abbrev Path := List Segment

/-- A path that grows at its inner end. -/
structure PathBuilder where
  path : Path

namespace PathBuilder

def empty : PathBuilder := ⟨[]⟩

instance : Inhabited PathBuilder := ⟨empty⟩

def add (b : PathBuilder) (s : Segment) : PathBuilder := ⟨b.path ++ [s]⟩

def size (b : PathBuilder) : Nat := b.path.length

def isEmpty (b : PathBuilder) : Bool := b.path.isEmpty

def listIndex (b : PathBuilder) (index : Int64) : PathBuilder := b.add (.listIndex index)

def listIndexCreate (b : PathBuilder) (index : Int64) (order : Segment.ListOrder) (pad : Bool) :
    PathBuilder :=
  b.add (.listIndexCreate index order pad)

def listRank (b : PathBuilder) (rank : Int64) : PathBuilder := b.add (.listRank rank)

def listValue (b : PathBuilder) (value : Value) : PathBuilder := b.add (.listValue value)

def mapIndex (b : PathBuilder) (index : Int64) : PathBuilder := b.add (.mapIndex index)

def mapRank (b : PathBuilder) (rank : Int64) : PathBuilder := b.add (.mapRank rank)

def mapKey (b : PathBuilder) (key : Value) : PathBuilder := b.add (.mapKey key)

def mapKeyCreate (b : PathBuilder) (key : Value) (order : Segment.MapOrder) : PathBuilder :=
  b.add (.mapKeyCreate key order)

def mapValue (b : PathBuilder) (value : Value) : PathBuilder := b.add (.mapValue value)

def allChildren (b : PathBuilder) : PathBuilder := b.add .allChildren

def children (b : PathBuilder) (test : Program) : PathBuilder := b.add (.children test)

end PathBuilder

end NestedPath
