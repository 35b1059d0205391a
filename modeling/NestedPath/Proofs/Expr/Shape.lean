import NestedPath.Proofs.Path.Injective

/-!
The shape of expressions: induction over them, properties that hold at every node, and equality.
-/

namespace NestedPath

namespace Expr

/-- An expression is a leaf, or a node over one, two or any number of expressions. -/
@[elab_as_elim, induction_eliminator]
theorem induct {P : Expr → Prop} (literal : ∀ v, P (.literal v))
    (loopVar : ∀ part kind, P (.loopVar part kind)) (bin : ∀ name kind, P (.bin name kind))
    (arith : ∀ op a b, P a → P b → P (.arith op a b))
    (compare : ∀ op a b, P a → P b → P (.compare op a b))
    (connect : ∀ op es, (∀ e ∈ es, P e) → P (.connect op es)) (not : ∀ a, P a → P (.not a))
    (regex : ∀ pattern flags a, P a → P (.regex pattern flags a))
    (geo : ∀ a b, P a → P b → P (.geo a b))
    (mapGet : ∀ returns kind key map path, P key → P map → P (.mapGet returns kind key map path))
    (listSize : ∀ list path, P list → P (.listSize list path))
    (call : ∀ returns target payload e, P e → P (.call returns target payload e))
    (remove : P .remove) : ∀ e, P e
  | .literal v => literal v
  | .loopVar part kind => loopVar part kind
  | .bin name kind => bin name kind
  | .arith op a b => arith op a b (go a) (go b)
  | .compare op a b => compare op a b (go a) (go b)
  | .connect op es => connect op es fun e _ => go e
  | .not a => not a (go a)
  | .regex pattern flags a => regex pattern flags a (go a)
  | .geo a b => geo a b (go a) (go b)
  | .mapGet returns kind key map path => mapGet returns kind key map path (go key) (go map)
  | .listSize list path => listSize list path (go list)
  | .call returns target payload e => call returns target payload e (go e)
  | .remove => remove
where
  go (e : Expr) : P e :=
    induct literal loopVar bin arith compare connect not regex geo mapGet listSize call remove e

/-! ### Properties of every node -/

/-- The property holds of the expression and of every expression within it. -/
def All (p : Expr → Prop) : Expr → Prop
  | arith op a b => p (arith op a b) ∧ a.All p ∧ b.All p
  | compare op a b => p (compare op a b) ∧ a.All p ∧ b.All p
  | connect op es => p (connect op es) ∧ ∀ e ∈ es, e.All p
  | not a => p (not a) ∧ a.All p
  | regex pattern flags a => p (regex pattern flags a) ∧ a.All p
  | geo a b => p (geo a b) ∧ a.All p ∧ b.All p
  | mapGet returns kind key map path =>
    p (mapGet returns kind key map path) ∧ key.All p ∧ map.All p
  | listSize list path => p (listSize list path) ∧ list.All p
  | call returns target payload e => p (call returns target payload e) ∧ e.All p
  | e => p e
termination_by e => sizeOf e
decreasing_by
  all_goals simp_wf
  all_goals try omega
  have := List.sizeOf_lt_of_mem ‹e ∈ es›
  omega

lemma All.self {p : Expr → Prop} {e : Expr} (h : e.All p) : p e := by
  cases e <;> rw [All] at h <;> first | exact h.1 | exact h | nofun

/-! ### Equality -/

lemma beqAll_eq_true {as bs : List Expr} (h : ∀ a ∈ as, ∀ b, a.beq b = true ↔ a = b) :
    Expr.beq.beqAll as bs = true ↔ as = bs := by
  induction as generalizing bs with
  | nil => cases bs <;> simp [Expr.beq.beqAll]
  | cons a as ih =>
    cases bs with
    | nil => simp [Expr.beq.beqAll]
    | cons b bs =>
      have ih := @ih bs fun a ha => h a (List.mem_cons_of_mem _ ha)
      rw [Expr.beq.beqAll, Bool.and_eq_true, h a List.mem_cons_self, ih, List.cons.injEq]

lemma beq_eq_true {a b : Expr} : a.beq b = true ↔ a = b := by
  induction a generalizing b with
  | connect op es ih =>
    cases b with
    | connect op' fs =>
      have hes : Expr.beq.beqAll es fs = true ↔ es = fs :=
        beqAll_eq_true fun e he f => @ih e he f
      rw [Expr.beq, Bool.and_eq_true, beq_iff_eq, hes, connect.injEq]
    | _ => simp [Expr.beq]
  | _ => cases b <;> simp only [Expr.beq, reduceCtorEq, Bool.false_eq_true] <;> simp [*, and_assoc]

instance : LawfulBEq Expr where
  rfl := beq_eq_true.2 rfl
  eq_of_beq := beq_eq_true.1

end Expr

end NestedPath
