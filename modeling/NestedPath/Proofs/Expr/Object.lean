import NestedPath.Proofs.Operation.Payload

/-!
Compiled expressions as stored programs.

An expression is compiled to one object if all that it calls with is one, as it is for selections
and modifications. Storage accepts it just if it is within the limit of depth.
-/

namespace NestedPath

open Reader

namespace Expr

variable {returns : ValueKind} {transform bin e : Expr} {path : Path}

/-! ### Selections and modifications inside expressions -/

lemma select_wellFormed {flags : Flags .select} (hb : bin.WellFormed)
    (h : select returns flags bin path = .ok e) : e.WellFormed := by
  obtain ⟨bs, hbs, ⟨⟩⟩ := except_bind_eq_ok.1 h
  obtain ⟨hw, rfl⟩ := selectPayload_eq_ok.1 hbs
  have hn : Lead .fixarray .array 3 (Item.bytes (.array 3)) := Item.lead_array (by decide)
  rw [WellFormed, All]
  exact ⟨⟨trivial, isObject_flatten hn (isObject_of_mem_pathElements hw)⟩, hb⟩

lemma modify_wellFormed {flags : Flags .modify} (ht : transform.WellFormed) (hb : bin.WellFormed)
    (h : modify returns flags transform bin path = .ok e) : e.WellFormed := by
  obtain ⟨bs, hbs, ⟨⟩⟩ := except_bind_eq_ok.1 h
  obtain ⟨hw, rfl⟩ := modifyPayload_eq_ok.1 hbs
  have hn : Lead .fixarray .array 4 (Item.bytes (.array 4)) := Item.lead_array (by decide)
  have htransform : IsObject (Item.pack transform.items) := isObject_iff.2 ⟨_, nests_items ht⟩
  have hpayload : IsObject (Item.bytes (.array 4) ++
      ((pathElements path flags.modifyWord).flatten ++ [Item.pack transform.items].flatten)) :=
    isObject_pathElements hw hn (List.forall_mem_singleton.2 htransform)
  rw [List.flatten_singleton] at hpayload
  rw [WellFormed, All]
  exact ⟨⟨trivial, hpayload⟩, hb⟩

/-! ### Negations, one around the other -/

/-- A call on what is looked up at the end of a path has four levels, and each negation one. -/
def negatedCall (n : Nat) : Expr :=
  Nat.repeat not n (call .bool 0 [0x91, 0x10]
    (mapGet .value .map (literal (.string "k")) (.bin "m" .map) [.allChildren]))

lemma wellFormed_negatedCall (n : Nat) : (negatedCall n).WellFormed := by
  induction n with
  | zero =>
    have hcall : IsObject [0x91, 0x10] := by decide
    have hname : "m".utf8ByteSize = 1 ∧ "k".utf8ByteSize = 1 := by decide
    simp [negatedCall, Nat.repeat, WellFormed, All, Packable, CallsObject, Path.Packable,
      Segment.packable_allChildren, hcall, hname, Value.Sized, Value.All, Value.Bounded]
  | succ n ih =>
    rw [negatedCall, Nat.repeat, WellFormed, All]
    exact ⟨⟨trivial, trivial⟩, ih⟩

lemma nesting_negatedCall (n : Nat) : (negatedCall n).nesting = n + 4 := by
  induction n with
  | zero =>
    have hcall : Bytes.levels [0x91, 0x10] = 1 := by decide
    have htest : Bytes.levels [0xc3] = 0 := by decide
    simp [negatedCall, Nat.repeat, nesting, levelsOver, commandNesting, Path.nesting,
      Segment.allChildren, Segment.children, Program.always, Segment.Payload.nesting,
      Value.nesting, hcall, htest]
  | succ n ih =>
    rw [negatedCall, Nat.repeat, nesting, ← negatedCall, ih]
    simp [levelsOver]

/-! ### Whole expressions -/

/--
A compiled expression is one object and is read as that wherever there is room for its levels.
Storage accepts it just if the levels are within the limit, and otherwise says that they are not.
Selections and modifications by paths are expressions of this sort again.
-/
theorem compile_object (h : e.WellFormed) :
    (∀ max l, e.nesting ≤ max → object max l e.compile.bytes = .ok e.compile.bytes []) ∧
    (Program.ofBytes? e.compile.bytes = .ok e.compile ↔ e.nesting ≤ Limits.depth) ∧
    (Limits.depth < e.nesting →
      Program.ofBytes? e.compile.bytes = .error (.tooDeep Limits.depth)) ∧
    (∀ returns flags path e', select returns flags e path = .ok e' → e'.WellFormed) ∧
    ∀ returns flags transform path e', transform.WellFormed →
      modify returns flags transform e path = .ok e' → e'.WellFormed := by
  have hn : Nests [e.nesting] e.compile.bytes := nests_items h
  refine ⟨fun max l hmax => ?_, ?_, fun hlt => ?_, ?_, ?_⟩
  · have ho := reads_object_of_nests (l := l) hn hmax []
    rwa [List.append_nil] at ho
  · rw [Program.ofBytes?_of_nests hn]
    split
    · exact iff_of_true rfl ‹_›
    · exact iff_of_false (by simp) ‹_›
  · rw [Program.ofBytes?_of_nests hn, if_neg (Nat.not_le.2 hlt)]
  · exact fun returns flags path e' => select_wellFormed h
  · exact fun returns flags transform path e' ht => modify_wellFormed ht h

theorem compile_object_negatedCall :
    object 65 "" (negatedCall 61).compile.bytes = .ok (negatedCall 61).compile.bytes [] ∧
    Program.ofBytes? (negatedCall 60).compile.bytes = .ok (negatedCall 60).compile ∧
    Program.ofBytes? (negatedCall 61).compile.bytes = .error (.tooDeep Limits.depth) := by
  have h60 := compile_object (wellFormed_negatedCall 60)
  have h61 := compile_object (wellFormed_negatedCall 61)
  rw [nesting_negatedCall] at h60 h61
  exact ⟨h61.1 65 "" (by decide), h60.2.1.2 (by decide), h61.2.2.1 (by decide)⟩

end Expr

end NestedPath
