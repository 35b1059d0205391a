import NestedPath.Path.Decode
import NestedPath.Proofs.Nesting
import NestedPath.Proofs.Value.Framed

/-!
Bytes that are cut short, and bytes with more behind them.

What is read to the end is not the beginning of anything else that is read to the end. An object
that is cut short fails for want of bytes and for no other reason, since all that is there was in
order; a path that is cut short may also have a count that the bytes left cannot hold.
-/

namespace NestedPath

open Reader

namespace Reader

variable {α β : Type} {r : Reader α} {f : α → Reader β} {a : α} {b : β} {l : String}
  {max room : Nat} {ds : List Nat} {bs cs hd s : Bytes}

/-! ### Objects that are cut short -/

/-- Given a part of the bytes from their front, the reader fails for want of the others. -/
def Starves (l : String) (r : Reader α) (bs : Bytes) : Prop :=
  ∀ front back, front ++ back = bs → back ≠ [] → ∃ left, r front = .error (.endOfInput l) left

lemma starves_nil : Starves l r [] :=
  fun _ _ e hne => absurd (List.append_eq_nil_iff.1 e).2 hne

lemma Starves.bind (hb : Reads r bs a) (hr : Starves l r bs) (hf : Starves l (f a) cs) :
    Starves l (r >>= f) (bs ++ cs) := by
  -- The cut is either within the bytes of the first reader or not in front of those of the second.
  have hsecond (x y : Bytes) (e : x ++ y = cs) (hy : y ≠ []) :
      ∃ left, (r >>= f) (bs ++ x) = .error (.endOfInput l) left := by
    rw [bind_of_ok (hb x)]
    exact hf x y e hy
  intro front back e hne
  rcases List.append_eq_append_iff.1 e with ⟨x, rfl, rfl⟩ | ⟨x, rfl, rfl⟩
  · by_cases hx : x = []
    · subst hx
      rw [List.nil_append] at hne
      have h := hsecond [] cs rfl hne
      rwa [List.append_nil, List.append_nil] at h
    · obtain ⟨left, h⟩ := hr front x rfl hx
      exact ⟨left, bind_of_error h⟩
  · exact hsecond x back rfl hne

lemma starves_bytes (l : String) {n : Nat} (h : bs.length = n) : Starves l (bytes n l) bs := by
  rintro front back rfl hne
  have hpos := List.length_pos_iff.2 hne
  rw [List.length_append] at h
  refine ⟨front, ?_⟩
  cases hf : bytes n l front with
  | ok x t =>
    obtain ⟨rfl, hx⟩ := bytes_eq_ok.1 hf
    rw [List.length_append] at h
    omega
  | error e t =>
    unfold bytes at hf
    split at hf
    · cases hf
    · cases hf
      rfl

lemma starves_byte (l : String) (x : UInt8) : Starves l (byte l) [x] := by
  rintro front back e hne
  rcases front with - | ⟨y, front⟩
  · exact ⟨[], rfl⟩
  · obtain ⟨-, hnil⟩ := List.cons.inj e
    exact absurd (List.append_eq_nil_iff.1 hnil).2 hne

lemma starves_uint (l : String) {w : Nat} (h : bs.length = w) : Starves l (uint w l) bs := by
  have hr := (starves_bytes l h).bind (f := fun ds => pure (ofBigEndian ds)) (reads_bytes l h)
    starves_nil
  rwa [List.append_nil] at hr

lemma starves_head {x : Nat × Nat} (h : Reads (head "") hd x) : Starves l (head l) hd := by
  obtain ⟨b, ds, hb, hds⟩ := bind_eq_ok.1 (h [])
  rw [List.append_nil, byte_eq_ok] at hb
  subst hb
  refine (starves_byte l b).bind (reads_byte l b) ?_
  rcases extent_cases b with ⟨y, hext⟩ | ⟨w, g, hext⟩ | hext
  · rw [hext] at hds
    rw [(pure_eq_ok.1 hds).2]
    exact starves_nil
  · rw [hext] at hds ⊢
    obtain ⟨n, t, hn, ht⟩ := bind_eq_ok.1 hds
    obtain ⟨-, rfl⟩ := pure_eq_ok.1 ht
    obtain ⟨ds, rfl, hw, -⟩ := uint_eq_ok.1 hn
    exact (starves_uint l hw).bind (reads_uint l hw rfl) starves_nil
  · rw [hext] at hds
    exact absurd hds throw_ne_ok

/-- A run of objects that there is room for is not passed over before all of it is there. -/
lemma starves_skipTimes (h : Nests ds bs) (hroom : ∀ d ∈ ds, d < room) :
    Starves l (skipTimes (skipWithin max l room) ds.length) bs := by
  induction h generalizing room with
  | nil => exact starves_nil
  | @cons hd body bs cs inner ds hhead hinner _ ihi ih =>
    obtain ⟨hover, hroom⟩ := List.forall_mem_cons.1 hroom
    obtain ⟨room, rfl⟩ : ∃ n, room = n + 1 := ⟨room - 1, by omega⟩
    have hin := levelsOver_lt.1 hover
    have hskip : Reads (skipTimes (skipWithin max l room) inner.length) bs () := fun rest =>
      (readsElse_skipTimes hinner max l room rest).1 hin
    have hreads : Reads (skipWithin max l (room + 1)) (hd ++ (body ++ bs)) () := by
      rw [skipWithin_succ]
      exact (le_head.reads hhead).bind ((reads_bytes l rfl).bind hskip)
    have hone : Starves l (skipWithin max l (room + 1)) (hd ++ (body ++ bs)) := by
      rw [skipWithin_succ]
      exact (starves_head hhead).bind (le_head.reads hhead)
        ((starves_bytes l rfl).bind (reads_bytes l rfl) (ihi hin))
    have hall := hone.bind (f := fun _ => skipTimes (skipWithin max l (room + 1)) ds.length) hreads
      (ih hroom)
    simp only [List.append_assoc] at hall
    exact hall

lemma starves_skip (h : Reads (skip max l) bs ()) : Starves l (skip max l) bs := by
  have hn := h.isObject.nests
  have hroom : ∀ d ∈ [bs.levels], d < max + 1 :=
    List.forall_mem_singleton.2 (Nat.lt_succ_of_le h.levels_le)
  have hs : Starves l (skipTimes (skipWithin max l (max + 1)) 1) bs := starves_skipTimes hn hroom
  have hone : skipTimes (skipWithin max l (max + 1)) 1 = skip max l := bind_pure_unit
  rwa [hone] at hs

/-! ### Readers that go to the end -/

/-- What a reader reads if it leaves nothing. -/
def toEnd (r : Reader α) (g : α → β) : Reader β := do
  let a ← r
  atEnd
  return g a

section

variable {g : α → β}

/-- What is read to the end is read wherever it stands. -/
lemma Framed.reads_of_runOn (hr : Framed r) (hb : runOn (toEnd r g) bs = .ok b) :
    ∃ a, Reads r bs a ∧ g a = b := by
  obtain ⟨t, ht⟩ := runOn_eq_ok.1 hb
  obtain ⟨a, u, ha, hu⟩ := bind_eq_ok.1 ht
  obtain ⟨⟨⟩, v, hend, hv⟩ := bind_eq_ok.1 hu
  obtain ⟨rfl, -⟩ := atEnd_eq_ok.1 hend
  exact ⟨a, hr.reads ha, (pure_eq_ok.1 hv).1⟩

/-- With more behind it, all that is left over is what is more. -/
lemma Reads.runOn_append (hr : Reads r bs a) (hs : s ≠ []) (g : α → β) :
    runOn (toEnd r g) (bs ++ s) = .error (.trailing s.length) := by
  have hend : atEnd s = .error (.trailing s.length) s := if_neg (by simpa using hs)
  have hread : toEnd r g (bs ++ s) = .error (.trailing s.length) s := by
    rw [toEnd, bind_of_ok (hr s), bind_of_error hend]
  exact runOn_of_error hread

/-- Nothing that is read to the end is a proper part, from the front, of what a reader takes. -/
lemma Reads.runOn_prefix (hf : Framed r) (hr : Reads r bs a) (hp : s <+: bs) (hne : s ≠ bs)
    (g : α → β) : ∃ e, runOn (toEnd r g) s = .error e := by
  cases hs : runOn (toEnd r g) s with
  | error e => exact ⟨e, rfl⟩
  | ok b =>
    obtain ⟨a', ha', -⟩ := hf.reads_of_runOn hs
    obtain ⟨back, rfl⟩ := hp
    obtain ⟨-, hback⟩ := hr.append_inj ha' (List.append_nil (s ++ back))
    rw [← hback, List.append_nil] at hne
    exact absurd rfl hne

end

end Reader

/-! ### Programs -/

namespace Program

variable {bs cs s : Bytes} {p : Program}

lemma ofBytes?_eq : ofBytes? bs = runOn (toEnd (skip Limits.depth "expression") fun _ => ⟨bs⟩) bs :=
  rfl

lemma reads_of_ofBytes? (h : ofBytes? bs = .ok p) :
    Reads (skip Limits.depth "expression") bs () := by
  rw [ofBytes?_eq] at h
  exact ((framed_skip _ _).reads_of_runOn h).choose_spec.1

lemma ofBytes?_append (h : ofBytes? bs = .ok p) (hs : s ≠ []) :
    ofBytes? (bs ++ s) = .error (.trailing s.length) :=
  (reads_of_ofBytes? h).runOn_append hs _

lemma ofBytes?_prefix (h : ofBytes? bs = .ok p) (hp : s <+: bs) (hne : s ≠ bs) :
    ofBytes? s = .error (.endOfInput "expression") := by
  obtain ⟨back, rfl⟩ := hp
  have hback : back ≠ [] := by
    rintro rfl
    exact hne (List.append_nil s).symm
  obtain ⟨left, he⟩ := starves_skip (reads_of_ofBytes? h) s back rfl hback
  rw [ofBytes?_eq]
  exact runOn_of_error (bind_of_error he)

end Program

/-! ### Paths -/

namespace Path

variable {limits : ReadLimits} {bs s : Bytes} {p : Path} {q : Program}

lemma framed_readLength : Framed readLength := by
  intro s n t h
  have hn : arrayHeader "context" s = .ok n t := by
    unfold readLength at h
    split at h
    · cases h
    · exact h
  obtain ⟨bs, rfl, hbs⟩ := framed_arrayHeader _ _ _ _ hn
  refine ⟨bs, rfl, fun rest => ?_⟩
  rw [readLength, hbs rest]

lemma framed_readPayload (limits : ReadLimits) (id : UInt32) : Framed (readPayload limits id) := by
  unfold readPayload
  split
  · exact (framed_object _ _).bind fun _ => Framed.pure _
  · exact (Value.framed_read _).bind fun _ => Framed.pure _

lemma framed_readSegment (limits : ReadLimits) : Framed (readSegment limits) := by
  refine (framed_number _).bind fun n => Framed.unless ?_
  refine (framed_readPayload limits _).bind fun payload => ?_
  split
  · exact Framed.pure _
  · exact Framed.throw _

/-- The segments of a path, whatever stands behind them. -/
def readSegments (limits : ReadLimits) : Reader Path := do
  let n ← readLength
  if n = 0 then throw .emptyPath
  if n % 2 ≠ 0 then throw (.oddLength n)
  if limits.segments < n / 2 then throw (.tooLong "context" (n / 2) limits.segments)
  times (readSegment limits) (n / 2) []

lemma framed_readSegments (limits : ReadLimits) : Framed (readSegments limits) := by
  refine framed_readLength.bind fun n => ?_
  exact Framed.unless (Framed.unless (Framed.unless ((framed_readSegment limits).times _ [])))

lemma read_eq (limits : ReadLimits) : read limits = toEnd (readSegments limits) id := by
  rw [read, toEnd, readSegments, bind_assoc]
  refine bind_congr fun n => ?_
  split_ifs <;> rfl

lemma decode_eq : decode limits bs = runOn (toEnd (readSegments limits) id) bs := by
  rw [decode, read_eq]

lemma reads_of_decode (h : decode limits bs = .ok p) : Reads (readSegments limits) bs p := by
  rw [decode_eq] at h
  obtain ⟨q, hq, rfl⟩ := (framed_readSegments limits).reads_of_runOn h
  exact hq

/--
No proper part, from the front, of a stored path or program is accepted, and neither is the whole
with more behind it: then the bytes that are too many are counted. A program that is cut short fails
for want of bytes, wherever the cut.
-/
theorem cut_or_extended_refused :
    (decode limits bs = .ok p →
      (∀ front, front <+: bs → front ≠ bs → ∃ e, decode limits front = .error e) ∧
      ∀ s, s ≠ [] → decode limits (bs ++ s) = .error (.trailing s.length)) ∧
    (Program.ofBytes? bs = .ok q →
      (∀ front, front <+: bs → front ≠ bs →
        Program.ofBytes? front = .error (.endOfInput "expression")) ∧
      ∀ s, s ≠ [] → Program.ofBytes? (bs ++ s) = .error (.trailing s.length)) := by
  constructor
  · intro h
    have hr := reads_of_decode h
    refine ⟨fun front hp hne => ?_, fun s hs => ?_⟩
    · rw [decode_eq]
      exact hr.runOn_prefix (framed_readSegments limits) hp hne id
    · rw [decode_eq]
      exact hr.runOn_append hs id
  · intro h
    exact ⟨fun front => Program.ofBytes?_prefix h, fun s => Program.ofBytes?_append h⟩

/-- A path to a list that holds a blob without a type byte; its bytes are an object as well. -/
theorem cut_or_extended_refused_list :
    decode .strict [0x92, 0x13, 0x91, 0xc4, 1, 7] = .ok [.listValue (.list [.blob [7]])] ∧
      (∃ e, decode .strict [0x92, 0x13, 0x91, 0xc4, 1] = .error e) ∧
      decode .strict [0x92, 0x13, 0x91, 0xc4, 1, 7, 0xc0] = .error (.trailing 1) ∧
      Program.ofBytes? [0x92, 0x13, 0x91, 0xc4, 1] = .error (.endOfInput "expression") ∧
      Program.ofBytes? [0x92, 0x13, 0x91, 0xc4, 1, 7, 0xc0] = .error (.trailing 1) := by
  have hpath : decode .strict [0x92, 0x13, 0x91, 0xc4, 1, 7] =
      .ok [.listValue (.list [.blob [7]])] := rfl
  have hprogram : Program.ofBytes? [0x92, 0x13, 0x91, 0xc4, 1, 7] =
      .ok ⟨[0x92, 0x13, 0x91, 0xc4, 1, 7]⟩ := rfl
  have hcut : [0x92, 0x13, 0x91, 0xc4, 1] <+: ([0x92, 0x13, 0x91, 0xc4, 1, 7] : Bytes) := ⟨[7], rfl⟩
  have hne : ([0x92, 0x13, 0x91, 0xc4, 1] : Bytes) ≠ [0x92, 0x13, 0x91, 0xc4, 1, 7] := by decide
  obtain ⟨hp, hq⟩ := @cut_or_extended_refused .strict _ _ ⟨[0x92, 0x13, 0x91, 0xc4, 1, 7]⟩
  obtain ⟨hpcut, hpmore⟩ := hp hpath
  obtain ⟨hqcut, hqmore⟩ := hq hprogram
  exact ⟨hpath, hpcut _ hcut hne, hpmore [0xc0] (by simp), hqcut _ hcut hne,
    hqmore [0xc0] (by simp)⟩

end Path

end NestedPath
