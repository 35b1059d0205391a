import NestedPath.Assoc
import NestedPath.Value.Order

/-!
Maps from values to values, their entries in ascending order of keys.

The order in which entries are given leaves no trace, save that the last value of a key counts.
-/

namespace NestedPath

structure ValueMap where
  entries : List (Value × Value)

namespace ValueMap

def empty : ValueMap := ⟨[]⟩

instance : Inhabited ValueMap := ⟨empty⟩

def insert (m : ValueMap) (k v : Value) : ValueMap := ⟨Assoc.insert Value.compare k v m.entries⟩

def get? (m : ValueMap) (k : Value) : Option Value := Assoc.find? Value.compare k m.entries

def size (m : ValueMap) : Nat := m.entries.length

def isEmpty (m : ValueMap) : Bool := m.entries.isEmpty

/-- The map that these insertions build, in this order. -/
def ofList (es : List (Value × Value)) : ValueMap :=
  es.foldl (fun m e => m.insert e.1 e.2) empty

def toValue (m : ValueMap) : Value := .map m.entries

end ValueMap

end NestedPath
