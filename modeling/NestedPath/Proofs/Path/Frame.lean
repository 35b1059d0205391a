import NestedPath.Proofs.Path.Framing

/-!
What a path in front of a command leaves open, and what becomes of it when the arguments follow.

Behind the command two lists are open, one within the other. The last argument closes both of them
at once, and without arguments the command itself does.
-/

namespace NestedPath

open Reader

/-! ### The bytes of a command -/

namespace Value

variable {vs : List Value}

def commandParts (command : Int64) (args : List Value) : List Bytes :=
  Item.bytes (.number command) :: args.map pack

def packCommand (command : Int64) (args : List Value) : Bytes :=
  Item.bytes (.array (args.length + 1)) ++ (commandParts command args).flatten

lemma length_commandParts (command : Int64) (args : List Value) :
    (commandParts command args).length = args.length + 1 := by
  rw [commandParts, List.length_cons, List.length_map]

lemma isObject_commandParts (command : Int64) (hs : ∀ v ∈ vs, v.Sized) :
    ∀ o ∈ commandParts command vs, IsObject o :=
  List.forall_mem_cons.2 ⟨isObject_number command,
    List.forall_mem_map.2 fun v hv => isObject_pack (hs v hv)⟩

lemma lead_commandParts (command : Int64) (hn : vs.length + 1 < 1 <<< 32) :
    Lead .fixarray .array (commandParts command vs).length
      (Item.bytes (.array (vs.length + 1))) := by
  rw [length_commandParts]
  exact Item.lead_array hn

lemma isList_packCommand (command : Int64) (hn : vs.length + 1 < 1 <<< 32)
    (hs : ∀ v ∈ vs, v.Sized) : IsList (commandParts command vs) (packCommand command vs) :=
  isList_flatten (lead_commandParts command hn) (isObject_commandParts command hs)

lemma isObject_packCommand (command : Int64) (hn : vs.length + 1 < 1 <<< 32)
    (hs : ∀ v ∈ vs, v.Sized) : IsObject (packCommand command vs) :=
  isObject_flatten (lead_commandParts command hn) (isObject_commandParts command hs)

end Value

/-! ### The bytes of a frame -/

namespace Path

variable {flag : UInt32} {command : Int64} {n : Nat} {p : Path} {is : List Item} {args : List Value}

lemma frame_eq_ok : frame flag command n p = .ok is ↔
    p.Writable ∧ frameItems flag command n p = is := by
  rw [frame, check_bind_eq_ok]

/-- The command is one object of the inner list, and the inner list the last one of the outer. -/
lemma settle_frameItems (flag : UInt32) (command : Int64) (n : Nat) (p : Path)
    (pending : List Nat) : (frameItems flag command n p).foldl Item.settle pending =
      completeOne ((n + 1) :: 1 :: pending) := by
  have hcode : [.array 3, .nat frameCode].foldl Item.settle pending = 2 :: pending := rfl
  have hpath : (items flag p).foldl Item.settle (2 :: pending) = 1 :: pending :=
    p.completes_items flag (2 :: pending)
  rw [frameItems, List.foldl_append, List.foldl_append, hcode, hpath]
  rfl

def frameParts (flag : UInt32) (command : Int64) (args : List Value) (p : Path) : List Bytes :=
  [Item.bytes (.nat frameCode), Item.pack (items flag p), Value.packCommand command args]

/-- The arguments behind a frame for as many of them make it a list of its three parts. -/
lemma pack_frameItems_append (flag : UInt32) (command : Int64) (args : List Value) (p : Path) :
    Item.pack (frameItems flag command args.length p) ++ args.flatMap Value.pack =
      Item.bytes (.array 3) ++ (frameParts flag command args p).flatten := by
  simp only [frameItems, frameParts, Value.packCommand, Value.commandParts, Item.pack_append,
    Item.pack_cons, Item.pack_nil, List.flatten_cons, List.flatten_nil, List.append_assoc,
    List.append_nil, List.flatMap_def]

lemma Writable.isList_frameParts (h : p.Writable) (flag : UInt32) (command : Int64)
    (hn : args.length + 1 < 1 <<< 32) (hs : ∀ v ∈ args, v.Sized) :
    IsList (frameParts flag command args p)
      (Item.bytes (.array 3) ++ (frameParts flag command args p).flatten) := by
  have hcommand := Value.isObject_packCommand command hn hs
  have hthree : 3 < 1 <<< 32 := by decide
  refine isList_flatten (Item.lead_array hthree) ?_
  exact List.forall_mem_cons.2 ⟨isObject_number _,
    List.forall_mem_cons.2 ⟨h.isObject flag, List.forall_mem_singleton.2 hcommand⟩⟩

end Path

/-! ### Writers -/

namespace Writer

variable {w w' : Writer} {flag : UInt32} {command : Int64} {n : Nat} {p : Path} {args : List Value}

def writeValues (w : Writer) (vs : List Value) : Writer :=
  vs.foldl (fun w v => w.write v.items) w

/-- Each value is one object more. -/
lemma writeValues_eq (w : Writer) (vs : List Value) : w.writeValues vs =
    ⟨w.bytes ++ vs.flatMap Value.pack, completeOne^[vs.length] w.pending⟩ := by
  induction vs generalizing w with
  | nil =>
    rw [List.flatMap_nil, List.append_nil]
    rfl
  | cons v vs ih =>
    have hstep : w.writeValues (v :: vs) = (w.write v.items).writeValues vs := rfl
    rw [hstep, ih, write_of_completes v.completes_items, List.flatMap_cons, List.append_assoc,
      List.length_cons, Function.iterate_succ_apply]
    rfl

lemma writeFrame_eq_ok : w.writeFrame flag command n p = (.ok (), w') ↔ p.Writable ∧
    w' = ⟨w.bytes ++ Item.pack (Path.frameItems flag command n p),
      completeOne ((n + 1) :: 1 :: w.pending)⟩ := by
  rw [← Path.settle_frameItems flag command n p, writeFrame, attempt_eq_ok]
  constructor
  · rintro ⟨is, his, rfl⟩
    obtain ⟨hp, rfl⟩ := Path.frame_eq_ok.1 his
    exact ⟨hp, rfl⟩
  · rintro ⟨hp, rfl⟩
    exact ⟨_, Path.frame_eq_ok.2 ⟨hp, rfl⟩, rfl⟩

/-- Before the last argument two more lists are open than before the frame. -/
lemma pending_writeValues_of_lt (h : w.writeFrame flag command n p = (.ok (), w'))
    (hlt : args.length < n) :
    (w'.writeValues args).pending = (n - args.length) :: 1 :: w.pending := by
  obtain ⟨-, rfl⟩ := writeFrame_eq_ok.1 h
  rw [writeValues_eq]
  change completeOne^[args.length + 1] ((n + 1) :: 1 :: w.pending) = _
  rw [Item.iterate_completeOne_of_lt (by omega), Nat.add_sub_add_right]

/-- With all its arguments the frame is one object. -/
lemma writeValues_of_length_eq
    (h : w.writeFrame flag command args.length p = (.ok (), w')) : w'.writeValues args =
      ⟨w.bytes ++ (Item.bytes (.array 3) ++ (Path.frameParts flag command args p).flatten),
        completeOne w.pending⟩ := by
  obtain ⟨-, rfl⟩ := writeFrame_eq_ok.1 h
  rw [writeValues_eq, ← Path.pack_frameItems_append, List.append_assoc, Writer.mk.injEq]
  refine ⟨rfl, ?_⟩
  change completeOne^[args.length + 1] ((args.length + 1) :: 1 :: w.pending) = _
  rw [Item.iterate_completeOne]
  rfl

/--
A frame that is refused leaves the writer as it was. One that is written to a writer with nothing
open leaves two lists open until the last of the arguments follows, and so long the writer cannot
finish. Then it finishes with one list more: the code, the bytes that any writer writes for the
path, and the list of the command and the arguments.
-/
theorem writeFrame_then_values (w : Writer) (flag : UInt32) (command : Int64) (n : Nat) (p : Path)
    (l : String) :
    (∀ e w', w.writeFrame flag command n p = (.error e, w') → w' = w) ∧
    ∀ w', w.writeFrame flag command n p = (.ok (), w') → w.pending = [] →
      (∀ args, args.length < n → (w'.writeValues args).pending.length = 2 ∧
        (w'.writeValues args).finish = .error ⟨2⟩) ∧
      ∀ args, args.length = n → n + 1 < 1 <<< 32 → (∀ v ∈ args, v.Sized) →
        ∃ bs code path rest name,
          (w'.writeValues args).finish = .ok (w.bytes ++ bs) ∧ IsList [code, path, rest] bs ∧
          Reader.number l code = .ok 0xff [] ∧
          (∀ u : Writer, u.writePath flag p =
            (.ok (), ⟨u.bytes ++ path, completeOne u.pending⟩)) ∧
          IsList (name :: args.map Value.pack) rest ∧ Reader.number l name = .ok command [] := by
  refine ⟨fun e w' h => attempt_eq_error h, fun w' h hw => ⟨fun args hlt => ?_, ?_⟩⟩
  · have hpending := pending_writeValues_of_lt h hlt
    rw [hw] at hpending
    rw [finish, hpending]
    exact ⟨rfl, rfl⟩
  · rintro args rfl hn hs
    obtain ⟨hp, -⟩ := writeFrame_eq_ok.1 h
    refine ⟨_, _, _, _, _, ?_, hp.isList_frameParts flag command hn hs, number_bytes _ l,
      fun u => writePath_eq_ok.2 ⟨hp, rfl⟩, Value.isList_packCommand command hn hs,
      number_bytes command l⟩
    rw [writeValues_of_length_eq h, hw]
    rfl

/-- A command with a list and an empty map for arguments, and the same without the map. -/
theorem writeFrame_then_values_list_map :
    ∃ w', empty.writeFrame 0x40 16 2 [.listIndex 0] = (.ok (), w') ∧
      (w'.writeValues [.list [.nil]]).finish = .error ⟨2⟩ ∧
      ∃ bs code path rest name,
        (w'.writeValues [.list [.nil], .map []]).finish = .ok bs ∧ IsList [code, path, rest] bs ∧
        Reader.number "" code = .ok 0xff [] ∧
        empty.writePath 0x40 [.listIndex 0] = (.ok (), ⟨path, []⟩) ∧
        IsList [name, [0x91, 0xc0], [0x81, 0xc7, 0, 1, 0xc0]] rest ∧
        Reader.number "" name = .ok 16 [] := by
  have hp : Path.Writable [.listIndex 0] := Path.writable_single rfl
  have hwrite : empty.writeFrame 0x40 16 2 [.listIndex 0] = (.ok (), _) :=
    writeFrame_eq_ok.2 ⟨hp, rfl⟩
  obtain ⟨hopen, hclosed⟩ := (writeFrame_then_values empty 0x40 16 2 _ "").2 _ hwrite rfl
  have hlist : (Value.list [.nil]).pack = [0x91, 0xc0] := by
    rw [Value.pack_list, List.flatMap_singleton, Value.pack, Value.items]
    rfl
  have hmap : (Value.map []).pack = [0x81, 0xc7, 0, 1, 0xc0] := by
    rw [Value.pack_map, List.flatMap_nil]
    rfl
  have hsized : ∀ v ∈ [Value.list [.nil], .map []], v.Sized := by
    simp [Value.Sized, Value.All, Value.Bounded]
  obtain ⟨bs, code, path, rest, name, hfinish, hbs, hcode, hpath, hrest, hname⟩ :=
    hclosed [.list [.nil], .map []] rfl (by decide) hsized
  rw [List.map_cons, List.map_singleton, hlist, hmap] at hrest
  exact ⟨_, hwrite, (hopen _ (by decide)).2, bs, code, path, rest, name, hfinish, hbs, hcode,
    hpath empty, hrest, hname⟩

end Writer

end NestedPath
