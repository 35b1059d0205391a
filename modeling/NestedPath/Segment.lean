import NestedPath.Program
import NestedPath.Value.Map

/-!
The segments of a path: one step into a list or map each.

A segment has an id and either a literal or a filter. The low bits of the id say what kind of step
it is, two bits above them whether a missing list or map is to be made, and a filter goes with
exactly one of the kinds.
-/

namespace NestedPath

namespace Segment

inductive Kind where
  | listIndex | listRank | listValue | mapIndex | mapRank | mapKey | mapValue
  /-- Every child, or those that pass a filter. -/
  | allChildren
  deriving DecidableEq

namespace Kind

def id : Kind → UInt32
  | allChildren => 0x04
  | listIndex => 0x10
  | listRank => 0x11
  | listValue => 0x13
  | mapIndex => 0x20
  | mapRank => 0x21
  | mapKey => 0x22
  | mapValue => 0x23

def all : List Kind :=
  [allChildren, listIndex, listRank, listValue, mapIndex, mapRank, mapKey, mapValue]

def name : Kind → String
  | listIndex => "ListIndex"
  | listRank => "ListRank"
  | listValue => "ListValue"
  | mapIndex => "MapIndex"
  | mapRank => "MapRank"
  | mapKey => "MapKey"
  | mapValue => "MapValue"
  | allChildren => "AllChildren"

end Kind

/-- The bits of an id that ask for a missing list or map to be made. -/
def createMask : UInt32 := 0xc0

def Kind.ofId? (id : UInt32) : Option Kind := Kind.all.find? (·.id == id &&& ~~~createMask)

inductive Payload where
  | literal (value : Value)
  | filter (program : Program)

namespace Payload

def isFilter : Payload → Bool
  | literal _ => false
  | filter _ => true

instance : BEq Payload where
  beq
    | literal a, literal b => a == b
    | filter p, filter q => p == q
    | _, _ => false

end Payload

/-- The id stands for a kind of step, and the payload is a filter just if that kind has one. -/
def Payload.fits (payload : Payload) (id : UInt32) : Bool :=
  match Kind.ofId? id with
  | some kind => payload.isFilter == (kind == .allChildren)
  | none => false

end Segment

structure Segment where
  id : UInt32
  payload : Segment.Payload
  fits : payload.fits id = true

namespace Segment

instance : BEq Segment := ⟨fun s t => s.id == t.id && s.payload == t.payload⟩

def ofParts? (id : UInt32) (payload : Payload) : Option Segment :=
  if h : payload.fits id = true then some ⟨id, payload, h⟩ else none

theorem isSome_kind (s : Segment) : (Kind.ofId? s.id).isSome := by
  have h := s.fits
  unfold Payload.fits at h
  cases hk : Kind.ofId? s.id <;> simp_all

theorem isFilter_iff (s : Segment) :
    s.payload.isFilter = true ↔ Kind.ofId? s.id = some .allChildren := by
  have h := s.fits
  unfold Payload.fits at h
  cases hk : Kind.ofId? s.id with
  | none =>
    rw [hk] at h
    cases h
  | some kind =>
    rw [hk] at h
    rw [eq_of_beq h, beq_iff_eq, Option.some_inj]

def kind (s : Segment) : Kind := (Kind.ofId? s.id).get s.isSome_kind

/-- A missing list or map is to be made on the way. -/
def creates (s : Segment) : Bool := s.kind != .allChildren && s.id &&& createMask != 0

/-- The order of a list that is made on the way. -/
inductive ListOrder where
  | unordered | ordered
  deriving DecidableEq, Inhabited

inductive MapOrder where
  | unordered | key | keyValue
  deriving DecidableEq, Inhabited

/-- `pad` asks for gaps in an unordered list to be filled. -/
def ListOrder.createBits : ListOrder → (pad : Bool) → UInt32
  | ordered, _ => 0xc0
  | unordered, true => 0x80
  | unordered, false => 0x40

def MapOrder.createBits : MapOrder → UInt32
  | unordered => 0x40
  | key => 0x80
  | keyValue => 0xc0

/-! ### The named segments -/

/-- The list element at an index; negative ones count from the end. -/
def listIndex (index : Int64) : Segment := ⟨Kind.listIndex.id, .literal (.int index), rfl⟩

/-- The list element at an index, in a list that is made if it is missing. -/
def listIndexCreate (index : Int64) (order : ListOrder) (pad : Bool) : Segment :=
  ⟨Kind.listIndex.id ||| order.createBits pad, .literal (.int index), by
    cases order <;> cases pad <;> rfl⟩

/-- The list element of a rank, the least having rank zero. -/
def listRank (rank : Int64) : Segment := ⟨Kind.listRank.id, .literal (.int rank), rfl⟩

def listValue (value : Value) : Segment := ⟨Kind.listValue.id, .literal value, rfl⟩

def mapIndex (index : Int64) : Segment := ⟨Kind.mapIndex.id, .literal (.int index), rfl⟩

def mapRank (rank : Int64) : Segment := ⟨Kind.mapRank.id, .literal (.int rank), rfl⟩

def mapKey (key : Value) : Segment := ⟨Kind.mapKey.id, .literal key, rfl⟩

/-- The map entry of a key, in a map that is made if it is missing. -/
def mapKeyCreate (key : Value) (order : MapOrder) : Segment :=
  ⟨Kind.mapKey.id ||| order.createBits, .literal key, by cases order <;> rfl⟩

def mapValue (value : Value) : Segment := ⟨Kind.mapValue.id, .literal value, rfl⟩

/-- The children that a program is true of. -/
def children (test : Program) : Segment := ⟨Kind.allChildren.id, .filter test, rfl⟩

def allChildren : Segment := children .always

end Segment

end NestedPath
