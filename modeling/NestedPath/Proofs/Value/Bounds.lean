import NestedPath.Proofs.Value.Shape
import NestedPath.Value.Bounds

/-!
What the check before writing lets through: values that are within the limits and not too deep.
-/

namespace NestedPath

/-! ### Checks in a row -/

section

variable {ε α β : Type} {x : Except ε α} {f : α → Except ε β} {b : β}

lemma except_bind_eq_ok : (x >>= f) = .ok b ↔ ∃ a, x = .ok a ∧ f a = .ok b := by
  cases x with
  | error e => simp [Bind.bind, Except.bind]
  | ok a => simp [Bind.bind, Except.bind]

lemma except_seq_eq_ok {x : Except ε Unit} {y : Except ε β} :
    (x >>= fun _ => y) = .ok b ↔ x = .ok () ∧ y = .ok b := by
  rw [except_bind_eq_ok]
  exact ⟨fun ⟨_, h⟩ => h, fun h => ⟨(), h⟩⟩

/-- A run of checks passes if every one of them does. -/
lemma except_forM_eq_ok {check : α → Except ε Unit} {as : List α} :
    as.forM check = .ok () ↔ ∀ a ∈ as, check a = .ok () := by
  induction as with
  | nil => exact ⟨fun _ a h => absurd h List.not_mem_nil, fun _ => rfl⟩
  | cons a as ih =>
    change (check a >>= fun _ => as.forM check) = _ ↔ _
    rw [except_seq_eq_ok, ih, List.forall_mem_cons]

end

namespace Value

lemma boundLength_eq_ok {field : String} {n max : Nat} :
    boundLength field n max = .ok () ↔ n ≤ max := by
  unfold boundLength
  split
  · exact ⟨nofun, fun h => by omega⟩
  · exact ⟨fun _ => by omega, fun _ => rfl⟩

lemma boundWithin_zero (v : Value) : v.boundWithin 0 = .error (.tooDeep Limits.depth) := by
  cases v <;> rfl

/-- A scalar goes beyond its limits by its size alone. -/
lemma Scalar.boundWithin_succ {v : Value} (h : v.Scalar) (room : Nat) :
    v.boundWithin (room + 1) = .ok () ↔ v.Bounded Limits.body Limits.items := by
  cases v with
  | list vs => exact h.elim
  | map es => exact h.elim
  | string s => exact boundLength_eq_ok
  | blob bytes => exact boundLength_eq_ok
  | geo json => exact boundLength_eq_ok
  | _ => exact ⟨fun _ => trivial, fun _ => rfl⟩

lemma Scalar.boundWithin_eq_ok {v : Value} (h : v.Scalar) {room : Nat} :
    v.boundWithin room = .ok () ↔ v.depth < room ∧ v.Limited := by
  cases room with
  | zero => simp [boundWithin_zero]
  | succ room =>
    rw [h.boundWithin_succ, Limited, h.all_iff, h.depth_eq]
    exact (and_iff_right (Nat.succ_pos room)).symm

lemma boundWithin_list (room : Nat) (vs : List Value) :
    (list vs).boundWithin (room + 1) = .ok () ↔
      vs.length ≤ Limits.items ∧ ∀ v ∈ vs, v.boundWithin room = .ok () := by
  rw [boundWithin, except_seq_eq_ok, boundLength_eq_ok, except_forM_eq_ok]

lemma boundWithin_map (room : Nat) (es : List (Value × Value)) :
    (map es).boundWithin (room + 1) = .ok () ↔ es.length + 1 ≤ Limits.items ∧
      ∀ e ∈ es, e.1.boundWithin room = .ok () ∧ e.2.boundWithin room = .ok () := by
  rw [boundWithin, except_seq_eq_ok, boundLength_eq_ok, except_forM_eq_ok]
  simp only [except_seq_eq_ok]

lemma boundWithin_eq_ok {v : Value} {room : Nat} :
    v.boundWithin room = .ok () ↔ v.depth < room ∧ v.Limited := by
  induction v generalizing room with
  | list vs ih =>
    cases room with
    | zero => simp [boundWithin_zero]
    | succ room =>
      rw [boundWithin_list, depth_list_lt, Limited, all_list, Bounded]
      have hvs (v) (hv : v ∈ vs) := @ih v hv room
      exact ⟨fun h => ⟨fun v hv => ((hvs v hv).1 (h.2 v hv)).1, h.1,
          fun v hv => ((hvs v hv).1 (h.2 v hv)).2⟩,
        fun h => ⟨h.2.1, fun v hv => (hvs v hv).2 ⟨h.1 v hv, h.2.2 v hv⟩⟩⟩
  | map es ih =>
    cases room with
    | zero => simp [boundWithin_zero]
    | succ room =>
      rw [boundWithin_map, depth_map_lt, Limited, all_map, Bounded]
      have hk (e) (he : e ∈ es) := @(ih e he).1 room
      have hv (e) (he : e ∈ es) := @(ih e he).2 room
      constructor
      · intro h
        have hk (e) (he : e ∈ es) := (hk e he).1 (h.2 e he).1
        have hv (e) (he : e ∈ es) := (hv e he).1 (h.2 e he).2
        exact ⟨fun e he => ⟨(hk e he).1, (hv e he).1⟩, h.1,
          fun e he => ⟨(hk e he).2, (hv e he).2⟩⟩
      · rintro ⟨hd, hl, hes⟩
        exact ⟨hl, fun e he => ⟨(hk e he).2 ⟨(hd e he).1, (hes e he).1⟩,
          (hv e he).2 ⟨(hd e he).2, (hes e he).2⟩⟩⟩
  | _ =>
    refine Scalar.boundWithin_eq_ok ?_
    trivial

/-- What is let through is what is no deeper and no larger than the limits. -/
theorem bound_eq_ok {v : Value} : v.bound = .ok () ↔ v.depth ≤ Limits.depth ∧ v.Limited := by
  rw [bound, boundWithin_eq_ok, Nat.lt_succ_iff]

end Value

end NestedPath
