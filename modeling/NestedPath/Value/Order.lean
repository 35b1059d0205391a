import NestedPath.Value.Basic

/-!
The total order on values.

Values of different kinds are ordered by kind. Lists are ordered by their first difference, a
list before its extensions, and maps likewise entry by entry, key before value. Map keys are
sorted by this order and two values are equal when it finds no difference.
-/

namespace NestedPath

namespace Value

/-- The place of a kind of value among the kinds. -/
def rank : Value → Nat
  | nil => 0
  | bool _ => 1
  | int _ => 2
  | string _ => 3
  | list _ => 4
  | map _ => 5
  | blob _ => 6
  | float _ => 7
  | geo _ => 8

mutual

protected def compare : Value → Value → Ordering
  | bool a, bool b => Ord.compare a b
  | int a, int b => Ord.compare a b
  | float a, float b => Ord.compare a b
  | string a, string b => Ord.compare a b
  | blob a, blob b => Ord.compare a b
  | geo a, geo b => Ord.compare a b
  | list as, list bs => compareItems as bs
  | map as, map bs => compareEntries as bs
  | a, b => Ord.compare a.rank b.rank

def compareItems : List Value → List Value → Ordering
  | [], [] => .eq
  | [], _ :: _ => .lt
  | _ :: _, [] => .gt
  | a :: as, b :: bs => (a.compare b).then (compareItems as bs)

def compareEntries : List (Value × Value) → List (Value × Value) → Ordering
  | [], [] => .eq
  | [], _ :: _ => .lt
  | _ :: _, [] => .gt
  | (k, v) :: as, (l, w) :: bs =>
    ((k.compare l).then (v.compare w)).then (compareEntries as bs)

end

instance : Ord Value := ⟨Value.compare⟩

instance : BEq Value := ⟨fun a b => a.compare b == .eq⟩

/-- The values in ascending order; equal ones keep their places. -/
def sorted (values : List Value) : List Value :=
  values.mergeSort fun a b => (a.compare b).isLE

end Value

end NestedPath
