import NestedPath.Value.Map
import NestedPath.Wire.Writer

/-!
Values in the wire format.

Texts, blobs and GeoJSON carry their type byte. A map is written with one more entry than it has,
which comes first and says that the others are in the order of their keys.
-/

namespace NestedPath.Value

/-- The extension type of the entry that marks a map as ordered by key. -/
def keyOrdered : UInt8 := 1

theorem sizeOf_fst_lt {es : List (Value × Value)} {e : Value × Value} (h : e ∈ es) :
    sizeOf e.1 < sizeOf (Value.map es) := by
  have h1 := List.sizeOf_lt_of_mem h
  have h2 : sizeOf e.1 < sizeOf e := by cases e; simp only [Prod.mk.sizeOf_spec]; omega
  simp only [map.sizeOf_spec]
  omega

theorem sizeOf_snd_lt {es : List (Value × Value)} {e : Value × Value} (h : e ∈ es) :
    sizeOf e.2 < sizeOf (Value.map es) := by
  have h1 := List.sizeOf_lt_of_mem h
  have h2 : sizeOf e.2 < sizeOf e := by cases e; simp only [Prod.mk.sizeOf_spec]; omega
  simp only [map.sizeOf_spec]
  omega

/-- The items of a value: one object. -/
def items : Value → List Item
  | nil => [.nil]
  | bool b => [.bool b]
  | int n => [.number n]
  | float d => [.double d]
  | string s => [.particle ParticleType.string.toByte (utf8 s)]
  | blob bytes => [.particle ParticleType.blob.toByte bytes]
  | geo json => [.particle ParticleType.geo.toByte (utf8 json)]
  | list vs => .array vs.length :: vs.flatMap fun v => v.items
  | map es =>
    .map (es.length + 1) :: .ext keyOrdered :: .nil ::
      es.flatMap fun e => e.1.items ++ e.2.items
termination_by v => sizeOf v
decreasing_by
  · have := List.sizeOf_lt_of_mem ‹v ∈ vs›
    simp only [list.sizeOf_spec]
    omega
  · exact sizeOf_fst_lt ‹e ∈ es›
  · exact sizeOf_snd_lt ‹e ∈ es›

def pack (v : Value) : Bytes := Item.pack v.items

end NestedPath.Value
