import NestedPath.Proofs.Operation.Payload
import NestedPath.Proofs.Value.Lookup

/-!
The order in which entries were put into a map leaves no trace in what is sent.

A map can stand deep within a path: in a literal, in the filter of a segment, in the payload of a
call within that. Wherever it does, another map with the same last values may take its place.
-/

namespace NestedPath

/--
The second is the first with the map `n` in place of the map `m`, at any number of places within its
literals. A map around such a place is built anew from its entries, and a filter and the payload of
a call are compiled anew.
-/
inductive Swaps (m n : ValueMap) : {α : Type} → α → α → Prop
  | here : Swaps m n m.toValue n.toValue
  | refl {α : Type} (x : α) : Swaps m n x x
  | cons {α : Type} {x y : α} {xs ys : List α} :
      Swaps m n x y → Swaps m n xs ys → Swaps m n (x :: xs) (y :: ys)
  | pair {α β : Type} {a c : α} {b d : β} :
      Swaps m n a c → Swaps m n b d → Swaps m n (a, b) (c, d)
  | list {vs ws : List Value} : Swaps m n vs ws → Swaps m n (Value.list vs) (Value.list ws)
  | map {es fs : List (Value × Value)} :
      Swaps m n es fs → Swaps m n (ValueMap.ofList es).toValue (ValueMap.ofList fs).toValue
  | literalPayload {v w : Value} :
      Swaps m n v w → Swaps m n (Segment.Payload.literal v) (Segment.Payload.literal w)
  | filterPayload {d e : Expr} : Swaps m n d e →
      Swaps m n (Segment.Payload.filter d.compile) (Segment.Payload.filter e.compile)
  | segment {id : UInt32} {a b : Segment.Payload} {ha : a.fits id = true} {hb : b.fits id = true} :
      Swaps m n a b → Swaps m n (Segment.mk id a ha) (Segment.mk id b hb)
  | literal {v w : Value} : Swaps m n v w → Swaps m n (Expr.literal v) (Expr.literal w)
  | arith {op : ArithOp} {a b c d : Expr} :
      Swaps m n a c → Swaps m n b d → Swaps m n (Expr.arith op a b) (Expr.arith op c d)
  | compare {op : Comparison} {a b c d : Expr} :
      Swaps m n a c → Swaps m n b d → Swaps m n (Expr.compare op a b) (Expr.compare op c d)
  | connect {op : Connective} {ds es : List Expr} :
      Swaps m n ds es → Swaps m n (Expr.connect op ds) (Expr.connect op es)
  | not {a b : Expr} : Swaps m n a b → Swaps m n (Expr.not a) (Expr.not b)
  | regex {pattern : String} {flags : Flags .regex} {a b : Expr} :
      Swaps m n a b → Swaps m n (Expr.regex pattern flags a) (Expr.regex pattern flags b)
  | geo {a b c d : Expr} :
      Swaps m n a c → Swaps m n b d → Swaps m n (Expr.geo a b) (Expr.geo c d)
  | mapGet {returns : MapReturn} {kind : ValueKind} {a b c d : Expr} {p q : Path} :
      Swaps m n a c → Swaps m n b d → Swaps m n p q →
      Swaps m n (Expr.mapGet returns kind a b p) (Expr.mapGet returns kind c d q)
  | listSize {a b : Expr} {p q : Path} :
      Swaps m n a b → Swaps m n p q → Swaps m n (Expr.listSize a p) (Expr.listSize b q)
  | call {returns : ValueKind} {target : UInt32} {payload : Bytes} {a b : Expr} :
      Swaps m n a b →
      Swaps m n (Expr.call returns target payload a) (Expr.call returns target payload b)
  | select {returns : ValueKind} {flags : Flags .select} {a b x y : Expr} {p q : Path} :
      Swaps m n a b → Swaps m n p q → Expr.select returns flags a p = .ok x →
      Expr.select returns flags b q = .ok y → Swaps m n x y
  | modify {returns : ValueKind} {flags : Flags .modify} {a b c d x y : Expr} {p q : Path} :
      Swaps m n a c → Swaps m n b d → Swaps m n p q → Expr.modify returns flags a b p = .ok x →
      Expr.modify returns flags c d q = .ok y → Swaps m n x y

/-- A map that takes its own place leaves all as it is. -/
lemma Swaps.eq {m : ValueMap} {α : Type} {x y : α} (h : Swaps m m x y) : x = y := by
  induction h with
  | select _ _ hx hy iha ihp =>
    subst iha ihp
    exact Except.ok.inj (hx.symm.trans hy)
  | modify _ _ _ hx hy iha ihb ihp =>
    subst iha ihb ihp
    exact Except.ok.inj (hx.symm.trans hy)
  | _ =>
    subst_vars
    rfl

/-- What goes out for an operation, and the digest by which it is kept. -/
def Operation.trace (op : Operation) : Bytes × Bytes := (op.payload, op.fingerprint)

namespace ValueMap

variable {es fs : List (Value × Value)}

/--
Runs of insertions that give each key the same last value build the same map. Its bytes are those of
its entries, in strictly ascending order of keys, behind the entry that marks the order. The one map
may take the place of the other anywhere in a path or an expression, and all payloads that these go
into and the fingerprints of all operations stay as they are.
-/
theorem insertions_leave_no_trace (h : ∀ k, lastValue? k es = lastValue? k fs) :
    ofList es = ofList fs ∧
    Assoc.Ascends Value.compare (ofList es).entries ∧
    (∀ k v, (k, v) ∈ (ofList es).entries ↔ lastValue? k es = some v) ∧
    (∀ gs ∈ [es, fs], (ofList gs).toValue.pack = Item.bytes (.map ((ofList es).size + 1)) ++
      (Item.bytes (.ext Value.keyOrdered) ++
        (Item.bytes .nil ++ (ofList es).entries.flatMap Value.packEntry))) ∧
    ∀ (p q : Path) (d e : Expr), Swaps (ofList es) (ofList fs) p q →
      Swaps (ofList es) (ofList fs) d e →
      (∀ flags, selectPayload flags p = selectPayload flags q) ∧
      (∀ flags, modifyPayload flags d.items p = modifyPayload flags e.items q) ∧
      (∀ bin flags, (Operation.select bin flags p).map Operation.trace =
        (Operation.select bin flags q).map Operation.trace) ∧
      (∀ bin flags, (Operation.modify bin flags d.compile p).map Operation.trace =
        (Operation.modify bin flags e.compile q).map Operation.trace) ∧
      (∀ bin flags, (Operation.evalRead bin d.compile flags).trace =
        (Operation.evalRead bin e.compile flags).trace) ∧
      ∀ bin flags, (Operation.evalWrite bin d.compile flags).trace =
        (Operation.evalWrite bin e.compile flags).trace := by
  have hmap : ofList es = ofList fs := ofList_eq_iff.2 h
  refine ⟨hmap, ascends_ofList es, fun k v => mem_entries_ofList, fun gs hgs => ?_, ?_⟩
  · have hgs : ofList gs = ofList es := by
      rcases List.mem_pair.1 hgs with rfl | rfl
      · rfl
      · exact hmap.symm
    rw [hgs]
    exact Value.pack_map _
  · intro p q d e hp he
    -- The two maps are one, so each takes its own place.
    rw [← hmap] at hp he
    obtain rfl := hp.eq
    obtain rfl := he.eq
    simp

/-- Two entries in either order, and in one of them behind an entry that is overwritten. -/
theorem insertions_leave_no_trace_overwritten : ∃ m n : ValueMap,
    m = ofList [(.string "b", .int 2), (.string "a", .int 1)] ∧
      n = ofList [(.string "a", .int 0), (.string "b", .int 2), (.string "a", .int 1)] ∧ m = n ∧
      (∃ op, Operation.select "bin" .none [.mapKey m.toValue] = .ok op) ∧
      (Operation.select "bin" .none [.mapKey m.toValue]).map Operation.trace =
        (Operation.select "bin" .none [.mapKey n.toValue]).map Operation.trace := by
  have hlast (k : Value) : lastValue? k [(.string "b", .int 2), (.string "a", .int 1)] =
      lastValue? k [(.string "a", .int 0), (.string "b", .int 2), (.string "a", .int 1)] := by
    by_cases ha : Value.string "a" = k
    · simp [lastValue?, ha]
    · by_cases hb : Value.string "b" = k
      · simp [lastValue?, ha, hb]
      · simp [lastValue?, ha, hb]
  have hpath (m n : ValueMap) : Swaps m n [Segment.mapKey m.toValue] [Segment.mapKey n.toValue] :=
    .cons (.segment (.literalPayload .here)) (.refl [])
  have hw : Path.Writable
      [.mapKey (ofList [(.string "b", .int 2), (.string "a", .int 1)]).toValue] :=
    Path.writable_single rfl
  obtain ⟨hmap, -, -, -, hsent⟩ := insertions_leave_no_trace hlast
  obtain ⟨-, -, hselect, -⟩ := hsent _ _ .remove .remove (hpath _ _) (.refl _)
  exact ⟨_, _, rfl, rfl, hmap, Operation.exists_select _ _ hw, hselect _ _⟩

end ValueMap

end NestedPath
