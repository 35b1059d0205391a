import NestedPath.Path.Text
import NestedPath.Proofs.Operation.Payload
import NestedPath.Proofs.Pending

/-!
Operations and calls that are built from one path are built alike, and everything that writes paths
accepts the same ones.

A call has its transform written into the payload item by item, an operation has it packed before.
-/

namespace NestedPath

namespace EncodeError

def ofTask (task : Task) : EncodeError → EncodeError
  | emptyPath _ => emptyPath task
  | e => e

end EncodeError

/-! ### Checks that name no task -/

/-- Whatever task the check is made for, it fails with the same error. -/
def Taskless {α : Type} (check : Except EncodeError α) : Prop :=
  ∀ task, check.mapError (.ofTask task) = check

namespace Taskless

lemma ok {α : Type} (a : α) : Taskless (.ok a) := fun _ => rfl

lemma seq {x y : Except EncodeError Unit} (hx : Taskless x) (hy : Taskless y) :
    Taskless (x >>= fun _ => y) := by
  cases x with
  | error e => exact hx
  | ok u => exact hy

lemma forM {α : Type} {check : α → Except EncodeError Unit} {as : List α}
    (h : ∀ a ∈ as, Taskless (check a)) : Taskless (as.forM check) := by
  induction as with
  | nil => exact ok ()
  | cons a as ih =>
    exact (h a List.mem_cons_self).seq (ih fun b hb => h b (List.mem_cons_of_mem a hb))

end Taskless

namespace Value

lemma taskless_boundLength (field : String) (length max : Nat) :
    Taskless (boundLength field length max) := by
  unfold boundLength
  split
  · exact fun _ => rfl
  · exact .ok ()

lemma taskless_boundWithin (room : Nat) (v : Value) : Taskless (v.boundWithin room) := by
  induction v generalizing room with
  | list vs ih =>
    cases room with
    | zero => exact fun _ => rfl
    | succ room =>
      rw [boundWithin]
      exact (taskless_boundLength _ _ _).seq (.forM fun v hv => ih v hv room)
  | map es ih =>
    cases room with
    | zero => exact fun _ => rfl
    | succ room =>
      rw [boundWithin]
      exact (taskless_boundLength _ _ _).seq
        (.forM fun e he => ((ih e he).1 room).seq ((ih e he).2 room))
  | string s => cases room <;> first | exact fun _ => rfl | exact taskless_boundLength _ _ _
  | blob bytes => cases room <;> first | exact fun _ => rfl | exact taskless_boundLength _ _ _
  | geo json => cases room <;> first | exact fun _ => rfl | exact taskless_boundLength _ _ _
  | _ => cases room <;> exact fun _ => rfl

end Value

lemma Program.taskless_bound (p : Program) : Taskless p.bound := by
  unfold bound
  split <;> exact fun _ => rfl

lemma Segment.taskless_bound (s : Segment) : Taskless s.bound := by
  unfold bound
  cases s.payload with
  | literal v => exact Value.taskless_boundWithin _ v
  | filter p => exact p.taskless_bound

/-! ### Refusals -/

def refusal {α : Type} : Except EncodeError α → Option EncodeError
  | .ok _ => none
  | .error e => some e

lemma refusal_eq_none {α : Type} {x : Except EncodeError α} :
    refusal x = none ↔ ∃ a, x = .ok a := by
  cases x <;> simp [refusal]

lemma refusal_bind_pure {α β : Type} (x : Except EncodeError α) (f : α → β) :
    refusal (x >>= fun a => pure (f a)) = refusal x := by
  cases x <;> rfl

lemma refusal_mapError {α : Type} (x : Except EncodeError α) (f : EncodeError → EncodeError) :
    refusal (x.mapError f) = (refusal x).map f := by
  cases x <;> rfl

namespace Path

/-- Tasks differ in what they say of a path that is empty, and in nothing else. -/
lemma check_eq_mapError (task other : Task) (p : Path) :
    check task p = (check other p).mapError (.ofTask task) := by
  unfold check
  split
  · rfl
  · split
    · rfl
    · exact (Taskless.forM (fun s _ => s.taskless_bound) task).symm

lemma refusal_check (task other : Task) (p : Path) :
    refusal (check task p) = (refusal (check other p)).map (.ofTask task) := by
  rw [check_eq_mapError task other, refusal_mapError]

/-- Everything that writes this path refuses it with this error, or accepts it if there is none. -/
structure Judged (p : Path) (verdict : Option EncodeError) : Prop where
  select (bin : String) (flags : Flags .select) :
    refusal (Operation.select bin flags p) = verdict.map (.ofTask .select)
  selectExpr (returns : ValueKind) (flags : Flags .select) (bin : Expr) :
    refusal (Expr.select returns flags bin p) = verdict.map (.ofTask .select)
  modify (bin : String) (flags : Flags .modify) (transform : Program) :
    refusal (Operation.modify bin flags transform p) = verdict.map (.ofTask .modify)
  modifyExpr (returns : ValueKind) (flags : Flags .modify) (transform bin : Expr) :
    refusal (Expr.modify returns flags transform bin p) = verdict.map (.ofTask .modify)
  write (w : Writer) (flag : UInt32) :
    refusal (w.writePath flag p).1 = verdict.map (.ofTask .encode)
  writeFrame (w : Writer) (flag : UInt32) (command : Int64) (args : Nat) :
    refusal (w.writeFrame flag command args p).1 = verdict.map (.ofTask .frame)
  store : refusal p.toText = verdict.map (.ofTask .store)

end Path

lemma Writer.refusal_attempt (w : Writer) (items : Except EncodeError (List Item)) :
    refusal (w.attempt items).1 = refusal items := by
  cases items <;> rfl

lemma Path.judged_check (p : Path) (task : Task) : p.Judged (refusal (check task p)) where
  select bin flags := by
    rw [← refusal_check, Operation.select, refusal_bind_pure, selectPayload, refusal_bind_pure]
  selectExpr returns flags bin := by
    rw [← refusal_check, Expr.select, refusal_bind_pure, selectPayload, refusal_bind_pure]
  modify bin flags transform := by
    rw [← refusal_check, Operation.modify, refusal_bind_pure, modifyPayload, refusal_bind_pure]
  modifyExpr returns flags transform bin := by
    rw [← refusal_check, Expr.modify, refusal_bind_pure, modifyPayload, refusal_bind_pure]
  write w flag := by
    rw [← refusal_check, Writer.writePath, Writer.refusal_attempt, encode, refusal_bind_pure]
  writeFrame w flag command args := by
    rw [← refusal_check, Writer.writeFrame, Writer.refusal_attempt, frame, refusal_bind_pure]
  store := by rw [← refusal_check, toText, refusal_bind_pure]

/-! ### Operations and calls -/

section

variable {path : Path}

lemma select_eq_map (returns : ValueKind) (flags : Flags .select) (bin : String) (source : Expr) :
    Expr.select returns flags source path = (Operation.select bin flags path).map fun op =>
      .call returns Expr.collections op.payload source := by
  unfold Expr.select Operation.select
  cases selectPayload flags path <;> rfl

/-- A transform may be packed before it is put into a payload. -/
lemma modifyPayload_packed (flags : Flags .modify) (is : List Item) :
    modifyPayload flags [.packed (Item.pack is)] path = modifyPayload flags is path := by
  have hbytes : Item.pack [.packed (Item.pack is)] = Item.pack is := List.append_nil _
  unfold modifyPayload
  rw [Item.pack_append, hbytes, ← Item.pack_append]

lemma modify_eq_map (returns : ValueKind) (flags : Flags .modify) (bin : String)
    (transform source : Expr) :
    Expr.modify returns flags transform source path =
      (Operation.modify bin flags transform.compile path).map fun op =>
        .call returns (Expr.collections ||| Expr.modifyBit) op.payload source := by
  have hpayload : modifyPayload flags [.packed transform.compile.bytes] path =
      modifyPayload flags transform.items path := modifyPayload_packed flags transform.items
  unfold Expr.modify Operation.modify
  rw [hpayload]
  cases modifyPayload flags transform.items path <;> rfl

end

/--
A call is built from a path just if the operation is, with the same payload, and else both fail
with the same error. For a modification this is so although the call compiles its transform where
it stands: by itself that leaves nothing open, and in any writer it comes to the same as writing
the bytes compiled before. All that write paths accept the same ones, and of any other they report
one error, each in its own name if the path is empty.
-/
theorem builders_agree (path : Path) :
    (∀ returns flags bin source, Expr.select returns flags source path =
      (Operation.select bin flags path).map fun op =>
        .call returns Expr.collections op.payload source) ∧
    (∀ returns flags bin transform source, Expr.modify returns flags transform source path =
      (Operation.modify bin flags transform.compile path).map fun op =>
        .call returns (Expr.collections ||| Expr.modifyBit) op.payload source) ∧
    (∀ transform : Expr,
      (Writer.empty.write transform.items).finish = .ok transform.compile.bytes ∧
      ∀ w : Writer, w.write transform.items = w.write [.packed transform.compile.bytes]) ∧
    ∃ verdict, (verdict = none ↔ path.Writable) ∧ path.Judged verdict := by
  refine ⟨fun _ _ _ _ => select_eq_map _ _ _ _, fun _ _ _ _ _ => modify_eq_map _ _ _ _ _, ?_, ?_⟩
  · intro transform
    have hone := transform.completes_items
    exact ⟨Writer.finish_write hone, fun w => (Writer.write_packed hone).symm⟩
  · refine ⟨refusal (path.check .store), ?_, path.judged_check .store⟩
    rw [refusal_eq_none]
    constructor
    · rintro ⟨u, h⟩
      exact Path.check_eq_ok.1 h
    · intro h
      exact ⟨(), Path.check_eq_ok.2 h⟩

end NestedPath
