/-!
Association lists sorted by a comparison of their keys.

Each operation passes the entries below its key and no more, so that the cost of adding keys in
descending order is one comparison each.
-/

namespace NestedPath.Assoc

variable {α β : Type}

/-- Sets the value of a key; a new key goes where the order puts it. -/
def insert (cmp : α → α → Ordering) (k : α) (v : β) : List (α × β) → List (α × β)
  | [] => [(k, v)]
  | e :: es =>
    match cmp k e.1 with
    | .lt => (k, v) :: e :: es
    | .eq => (e.1, v) :: es
    | .gt => e :: insert cmp k v es

def find? (cmp : α → α → Ordering) (k : α) : List (α × β) → Option β
  | [] => none
  | e :: es =>
    match cmp k e.1 with
    | .lt => none
    | .eq => some e.2
    | .gt => find? cmp k es

end NestedPath.Assoc
