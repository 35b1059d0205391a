import Mathlib.Tactic.Lemma
import NestedPath.Limits
import NestedPath.Value.Pack

/-!
The shape of values: induction over them, properties that hold at every depth, how deep they nest,
and the bytes of a list or map in terms of the bytes of what it holds.
-/

namespace NestedPath

/-- The keys of the entries ascend strictly. -/
def Assoc.Ascends {α β : Type} (cmp : α → α → Ordering) (es : List (α × β)) : Prop :=
  es.Pairwise fun a b => cmp a.1 b.1 = .lt

namespace Value

/-- A value is a scalar, a list of values, or a map with values for keys and values. -/
@[elab_as_elim, induction_eliminator]
theorem induct {P : Value → Prop} (nil : P .nil) (bool : ∀ b, P (.bool b)) (int : ∀ n, P (.int n))
    (float : ∀ d, P (.float d)) (string : ∀ s, P (.string s)) (blob : ∀ bytes, P (.blob bytes))
    (geo : ∀ json, P (.geo json)) (list : ∀ vs, (∀ v ∈ vs, P v) → P (.list vs))
    (map : ∀ es, (∀ e ∈ es, P e.1 ∧ P e.2) → P (.map es)) : ∀ v, P v
  | .nil => nil
  | .bool b => bool b
  | .int n => int n
  | .float d => float d
  | .string s => string s
  | .blob bytes => blob bytes
  | .geo json => geo json
  | .list vs => list vs fun v _ => induct nil bool int float string blob geo list map v
  | .map es => map es fun e _ =>
      ⟨induct nil bool int float string blob geo list map e.1,
        induct nil bool int float string blob geo list map e.2⟩
termination_by v => sizeOf v
decreasing_by
  · have := List.sizeOf_lt_of_mem ‹v ∈ vs›
    simp only [Value.list.sizeOf_spec]
    omega
  · exact sizeOf_fst_lt ‹e ∈ es›
  · exact sizeOf_snd_lt ‹e ∈ es›

/-- The property holds of the value and of every value within it. -/
def All (p : Value → Prop) : Value → Prop
  | list vs => p (list vs) ∧ ∀ v ∈ vs, v.All p
  | map es => p (map es) ∧ ∀ e ∈ es, e.1.All p ∧ e.2.All p
  | v => p v
termination_by v => sizeOf v
decreasing_by
  · have := List.sizeOf_lt_of_mem ‹v ∈ vs›
    simp only [list.sizeOf_spec]
    omega
  · exact sizeOf_fst_lt ‹e ∈ es›
  · exact sizeOf_snd_lt ‹e ∈ es›

variable {p q : Value → Prop} {v : Value} {vs : List Value} {es : List (Value × Value)}

lemma all_list : (list vs).All p ↔ p (list vs) ∧ ∀ v ∈ vs, v.All p := by rw [All]

lemma all_map : (map es).All p ↔ p (map es) ∧ ∀ e ∈ es, e.1.All p ∧ e.2.All p := by rw [All]

lemma All.self (h : v.All p) : p v := by
  cases v with
  | list vs => exact (all_list.1 h).1
  | map es => exact (all_map.1 h).1
  | _ => simpa [All] using h

lemma All.mono (hpq : ∀ v, p v → q v) : v.All p → v.All q := by
  induction v with
  | list vs ih =>
    rw [all_list, all_list]
    exact fun h => ⟨hpq _ h.1, fun v hv => ih v hv (h.2 v hv)⟩
  | map es ih =>
    rw [all_map, all_map]
    exact fun h => ⟨hpq _ h.1, fun e he => ⟨(ih e he).1 (h.2 e he).1, (ih e he).2 (h.2 e he).2⟩⟩
  | _ => simpa [All] using hpq _

lemma all_and : v.All (fun w => p w ∧ q w) ↔ v.All p ∧ v.All q := by
  induction v with
  | list vs ih =>
    simp only [all_list]
    exact ⟨fun h => ⟨⟨h.1.1, fun v hv => ((ih v hv).1 (h.2 v hv)).1⟩,
      h.1.2, fun v hv => ((ih v hv).1 (h.2 v hv)).2⟩,
      fun h => ⟨⟨h.1.1, h.2.1⟩, fun v hv => (ih v hv).2 ⟨h.1.2 v hv, h.2.2 v hv⟩⟩⟩
  | map es ih =>
    simp only [all_map]
    refine ⟨fun h => ⟨⟨h.1.1, fun e he => ?_⟩, h.1.2, fun e he => ?_⟩,
      fun h => ⟨⟨h.1.1, h.2.1⟩, fun e he => ?_⟩⟩
    · exact ⟨((ih e he).1.1 (h.2 e he).1).1, ((ih e he).2.1 (h.2 e he).2).1⟩
    · exact ⟨((ih e he).1.1 (h.2 e he).1).2, ((ih e he).2.1 (h.2 e he).2).2⟩
    · exact ⟨(ih e he).1.2 ⟨(h.1.2 e he).1, (h.2.2 e he).1⟩,
        (ih e he).2.2 ⟨(h.1.2 e he).2, (h.2.2 e he).2⟩⟩
  | _ => simp [All]

/-! ### Depth -/

/-- The levels of lists and maps: none in a scalar or an empty list or map. -/
def depth : Value → Nat
  | list vs => (vs.map fun v => v.depth + 1).foldr max 0
  | map es => (es.map fun e => max e.1.depth e.2.depth + 1).foldr max 0
  | _ => 0
termination_by v => sizeOf v
decreasing_by
  · have := List.sizeOf_lt_of_mem ‹v ∈ vs›
    simp only [list.sizeOf_spec]
    omega
  · exact sizeOf_fst_lt ‹e ∈ es›
  · exact sizeOf_snd_lt ‹e ∈ es›

lemma foldr_max_le {ns : List Nat} {n : Nat} : ns.foldr max 0 ≤ n ↔ ∀ m ∈ ns, m ≤ n := by
  induction ns with
  | nil => simp
  | cons m ns ih => rw [List.foldr_cons, Nat.max_le, ih, List.forall_mem_cons]

lemma depth_list_lt {n : Nat} : (list vs).depth < n + 1 ↔ ∀ v ∈ vs, v.depth < n := by
  rw [Nat.lt_succ_iff, depth, foldr_max_le, List.forall_mem_map]
  rfl

lemma depth_map_lt {n : Nat} :
    (map es).depth < n + 1 ↔ ∀ e ∈ es, e.1.depth < n ∧ e.2.depth < n := by
  rw [Nat.lt_succ_iff, depth, foldr_max_le, List.forall_mem_map]
  simp only [Nat.succ_le_iff, Nat.max_lt]

/-! ### Scalars -/

/-- The value holds no other values. -/
def Scalar : Value → Prop
  | list _ | map _ => False
  | _ => True

lemma Scalar.depth_eq (h : v.Scalar) : v.depth = 0 := by
  cases v <;> first | exact h.elim | simp [depth]

lemma Scalar.all_iff (h : v.Scalar) : v.All p ↔ p v := by
  cases v <;> first | exact h.elim | simp [All]

/-! ### Sizes and orders -/

/--
The body or count of the value itself is within bounds. A body counts its type byte, and a map
the entry that marks its order.
-/
def Bounded (body items : Nat) : Value → Prop
  | string s | geo s => s.utf8ByteSize + 1 ≤ body
  | blob bytes => bytes.length + 1 ≤ body
  | list vs => vs.length ≤ items
  | map es => es.length + 1 ≤ items
  | _ => True

/-- Every body and count in the value is within the limits of reading. -/
def Limited (v : Value) : Prop := v.All (Bounded Limits.body Limits.items)

/-- Every size and count that is written for the value has a numeral of four bytes. -/
def Sized (v : Value) : Prop := v.All (Bounded 0xffffffff 0xffffffff)

def KeysAscend : Value → Prop
  | map es => Assoc.Ascends Value.compare es
  | _ => True

/-- In every map of the value the keys ascend. -/
def Ordered (v : Value) : Prop := v.All KeysAscend

lemma Limited.sized (h : v.Limited) : v.Sized := by
  refine h.mono fun w hw => ?_
  have h1 : Limits.body ≤ 0xffffffff := by decide
  have h2 : Limits.items ≤ 0xffffffff := by decide
  cases w <;> simp only [Bounded] at hw ⊢ <;> omega

end Value

/-! ### Bytes -/

namespace Item

@[simp] lemma pack_nil : pack [] = [] := rfl

@[simp] lemma pack_cons (i : Item) (is : List Item) : pack (i :: is) = i.bytes ++ pack is := by
  simp [pack]

@[simp] lemma pack_append (is js : List Item) : pack (is ++ js) = pack is ++ pack js := by
  simp [pack]

@[simp] lemma pack_flatMap {α : Type} (f : α → List Item) (as : List α) :
    pack (as.flatMap f) = as.flatMap fun a => pack (f a) := by
  simp [pack, List.flatMap_assoc]

end Item

namespace Value

variable (vs : List Value) (es : List (Value × Value))

lemma pack_list : (list vs).pack = Item.bytes (.array vs.length) ++ vs.flatMap pack := by
  rw [pack, items, Item.pack_cons, Item.pack_flatMap]
  rfl

def packEntry (e : Value × Value) : Bytes := e.1.pack ++ e.2.pack

lemma pack_map : (map es).pack = Item.bytes (.map (es.length + 1)) ++
    (Item.bytes (.ext keyOrdered) ++ (Item.bytes .nil ++ es.flatMap packEntry)) := by
  rw [pack, items, Item.pack_cons, Item.pack_cons, Item.pack_cons, Item.pack_flatMap]
  simp only [Item.pack_append]
  rfl

end Value

end NestedPath
