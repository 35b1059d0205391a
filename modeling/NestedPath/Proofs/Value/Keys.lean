import NestedPath.Proofs.Value.Entries

/-!
Keys that come twice. A map with two equal keys is turned down wherever it stands within a value,
whatever forms the keys come in, and nothing else is turned down for that reason.

Equal keys are those that are written alike, so a reader that remembers the bytes of the keys and
puts each entry in its place does the same.
-/

namespace NestedPath

open Reader

namespace Reader

variable {α β : Type} {r : Reader α}

lemma blind_peek (l : String) : Blind (peek l) := by
  intro s left h
  cases s <;> cases h

lemma blind_skipTimes {one : Reader Unit} (h : Blind one) : ∀ n, Blind (skipTimes one n)
  | 0 => Blind.pure ()
  | n + 1 => h.bind fun _ => blind_skipTimes h n

lemma blind_skipWithin (max : Nat) (l : String) (room : Nat) : Blind (skipWithin max l room) := by
  induction room with
  | zero => exact Blind.throw nofun
  | succ room ih =>
    refine (blind_byte l).bind fun b => Blind.bind ?_ fun x =>
      (blind_bytes x.1 l).bind fun _ => blind_skipTimes ih x.2
    rcases extent_cases b with ⟨x, h⟩ | ⟨w, g, h⟩ | h
    · rw [h]
      exact Blind.pure x
    · rw [h]
      exact (blind_uint w l).bind fun _ => Blind.pure _
    · rw [h]
      exact Blind.throw nofun

/-- What is done with results may differ where there are no such results. -/
lemma Yields.bind_congr {P : α → Prop} {f g : α → Reader β} (h : Yields r P)
    (hfg : ∀ a, P a → f a = g a) : r >>= f = r >>= g := by
  funext s
  rw [bind_apply, bind_apply]
  cases hs : r s with
  | ok a t => exact congrFun (hfg a (h s a t hs)) t
  | error e t => rfl

end Reader

namespace Value

variable {element : Reader Value} {k v : Value} {max room n : Nat} {s t u left : Bytes}
  {new done es : List (Value × Value)}

/-! ### Where a key comes twice -/

/-- In front of `u`, some elements of a list; others are to come. -/
inductive AtItem (max room : Nat) : Bytes → Bytes → Prop
  | intro {n m : Nat} {hd s u : Bytes} {vs : List Value} (hh : Header .list n hd)
      (hvs : times (readWithin max room) m [] s = .ok vs u) (hm : m < n) :
      AtItem max room (hd ++ s) u

/-- In front of `u`, the entries `new` of a map and the mark of its order; others are to come. -/
inductive AtKey (max room : Nat) (new : List (Value × Value)) : Bytes → Bytes → Prop
  | intro {n m j : Nat} {hd s t u : Bytes} (hh : Header .map n hd)
      (hmark : orderMark max n s = .ok m t)
      (hnew : times (readEntry (readWithin max room)) j [] t = .ok new u) (hj : j < m) :
      AtKey max room new (hd ++ s) u

/--
Where a value is read with so much room, there is a map with a key that is equal to one before it:
the value itself, or in an element, a key or a value at any depth.
-/
inductive RepeatsKey (max : Nat) : Nat → Bytes → Prop
  | here {room : Nat} {new : List (Value × Value)} {s t u : Bytes} {k : Value} {e : Value × Value}
      (ha : AtKey max room new s u) (hk : readWithin max room u = .ok k t) (he : e ∈ new)
      (heq : e.1.compare k = .eq) : RepeatsKey max (room + 1) s
  | item {room : Nat} {s u : Bytes} (ha : AtItem max room s u) (hu : RepeatsKey max room u) :
      RepeatsKey max (room + 1) s
  | key {room : Nat} {new : List (Value × Value)} {s u : Bytes} (ha : AtKey max room new s u)
      (hu : RepeatsKey max room u) : RepeatsKey max (room + 1) s
  | value {room : Nat} {new : List (Value × Value)} {s t u : Bytes} {k : Value}
      (ha : AtKey max room new s u) (hk : readWithin max room u = .ok k t)
      (ht : RepeatsKey max room t) : RepeatsKey max (room + 1) s

/-! ### It is always turned down -/

lemma readList_eq_ok : readList element n s = .ok v t ↔ n ≤ Limits.items ∧ n ≤ s.length ∧
    ∃ vs, times element n [] s = .ok vs t ∧ v = .list vs := by
  rw [readList, limits_eq_ok, bind_eq_ok, Nat.mul_one]
  refine and_congr_right fun _ => and_congr_right fun _ => exists_congr fun vs => ?_
  constructor
  · rintro ⟨u, hvs, hu⟩
    obtain ⟨rfl, rfl⟩ := pure_eq_ok.1 hu
    exact ⟨hvs, rfl⟩
  · rintro ⟨hvs, rfl⟩
    exact ⟨t, hvs, rfl⟩

lemma AtItem.exists_ok (ha : AtItem max room s u) (h : readWithin max (room + 1) s = .ok v t) :
    ∃ w u', readWithin max room u = .ok w u' := by
  obtain ⟨hh, hvs, hm⟩ := ha
  rw [readWithin_list hh, readList_eq_ok] at h
  obtain ⟨-, -, ws, hws, -⟩ := h
  obtain ⟨w, u', -, hw, -⟩ := exists_of_times hvs hws hm
  exact ⟨w, u', hw⟩

/-- A map that is read goes on with an entry whose key is new. -/
lemma AtKey.exists_ok (ha : AtKey max room new s u) (h : readWithin max (room + 1) s = .ok v t) :
    ∃ e u', readEntry (readWithin max room) u = .ok e u' ∧ e.1 ∉ new.map Prod.fst := by
  obtain ⟨hh, hmark, hnew, hj⟩ := ha
  rw [readWithin_map hh, readMap_eq_ok] at h
  obtain ⟨-, -, m, t', all, es, hmark', hall, -, hes, hperm⟩ := h
  cases hmark.symm.trans hmark'
  obtain ⟨e, u', rest, he, rfl⟩ := exists_of_times hnew hall hj
  have hnodup := (hperm.map Prod.fst).nodup_iff.1 (Assoc.nodup_keys hes)
  rw [List.map_append, List.map_cons, List.nodup_middle, List.nodup_cons] at hnodup
  exact ⟨e, u', he, fun hmem => hnodup.1 (List.mem_append_left _ hmem)⟩

lemma RepeatsKey.ne_ok (h : RepeatsKey max room s) : readWithin max room s ≠ .ok v t := by
  induction h generalizing v t with
  | here ha hk he heq =>
    intro hs
    -- A map that is read goes on with an entry whose key is not among those before it.
    obtain ⟨e', u', he', hnot⟩ := ha.exists_ok hs
    obtain ⟨w, hk', -⟩ := readEntry_eq_ok.1 he'
    cases hk.symm.trans hk'
    exact hnot (List.mem_map.2 ⟨_, he, compare_eq_eq.1 heq⟩)
  | item ha _ ih =>
    intro hs
    obtain ⟨w, u', hw⟩ := ha.exists_ok hs
    exact ih hw
  | key ha _ ih =>
    intro hs
    obtain ⟨e', u', he', -⟩ := ha.exists_ok hs
    obtain ⟨w, hk, -⟩ := readEntry_eq_ok.1 he'
    exact ih hk
  | value ha hk _ ih =>
    intro hs
    obtain ⟨e', u', he', -⟩ := ha.exists_ok hs
    obtain ⟨w, hk', hv⟩ := readEntry_eq_ok.1 he'
    cases hk.symm.trans hk'
    exact ih hv

/-! ### Nothing else is turned down for it -/

lemma blind_limitCount (field : String) (n size : Nat) : Blind (limitCount field n size) := by
  intro s left h
  unfold limitCount at h
  split at h <;> cases h

lemma blind_orderMark (max n : Nat) : Blind (orderMark max n) := by
  unfold orderMark
  split
  · exact Blind.pure 0
  refine Blind.bind ((blind_peek _).bind fun _ => Blind.pure _) fun ordered => ?_
  split
  · exact (blind_skipWithin _ _ _).bind fun _ => (blind_skipWithin _ _ _).bind fun _ => Blind.pure _
  · exact Blind.pure n

/-- Either the key comes twice or it is turned down while a key or a value is read. -/
lemma readEntries_eq_error (hdone : Assoc.Ascends descending done)
    (h : readEntries element n done s = .error .duplicateKey left) :
    ∃ j new u, j < n ∧ times (readEntry element) j [] s = .ok new u ∧
      (element u = .error .duplicateKey left ∨ ∃ k t, element u = .ok k t ∧
        ((∃ e ∈ new ++ done, e.1 = k) ∨ element t = .error .duplicateKey left)) := by
  induction n generalizing done s with
  | zero => cases h
  | succ n ih =>
    rcases bind_eq_error.1 h with hk | ⟨k, t, hk, h1⟩
    · exact ⟨0, [], s, Nat.succ_pos n, rfl, .inl hk⟩
    by_cases hdup : (Assoc.find? descending k done).isSome
    · obtain ⟨w, hw⟩ := Option.isSome_iff_exists.1 hdup
      have hmem := (Assoc.find?_eq_some hdone).1 hw
      exact ⟨0, [], s, Nat.succ_pos n, rfl, .inr ⟨k, t, hk, .inl ⟨(k, w), hmem, rfl⟩⟩⟩
    rw [if_neg hdup] at h1
    rcases bind_eq_error.1 h1 with hv | ⟨v, u, hv, h2⟩
    · exact ⟨0, [], s, Nat.succ_pos n, rfl, .inr ⟨k, t, hk, .inr hv⟩⟩
    -- The fault lies further on. This entry is then one of those before it.
    obtain ⟨j, new, u', hj, hnew, hu'⟩ := ih (Assoc.ascends_insert k v hdone) h2
    have hentry : readEntry element s = .ok (k, v) u := readEntry_eq_ok.2 ⟨t, hk, hv⟩
    refine ⟨j + 1, (k, v) :: new, u', Nat.succ_lt_succ hj,
      times_succ_eq_ok.2 ⟨_, u, new, hentry, hnew, rfl⟩, hu'.imp_right ?_⟩
    rintro ⟨l, t', hl, hcase⟩
    refine ⟨l, t', hl, hcase.imp_left ?_⟩
    rintro ⟨e, he, rfl⟩
    refine ⟨e, ?_, rfl⟩
    rcases List.mem_append.1 he with he | he
    · exact List.mem_cons_of_mem _ (List.mem_append_left _ he)
    · rcases Assoc.mem_insert he with rfl | he
      · exact List.mem_cons_self
      · exact List.mem_cons_of_mem _ (List.mem_append_right _ he)

lemma limits_eq_error {r : Reader Value} {field : String} {size : Nat}
    (h : (limitLength field n max >>= fun _ => limitCount field n size >>= fun _ => r) s =
      .error .duplicateKey left) : r s = .error .duplicateKey left := by
  rcases bind_eq_error.1 h with h1 | ⟨⟨⟩, s', hlength, h1⟩
  · exact absurd h1 (blind_limitLength _ _ _ _ _)
  obtain ⟨-, rfl⟩ := limitLength_eq_ok.1 hlength
  rcases bind_eq_error.1 h1 with h2 | ⟨⟨⟩, s', hcount, h2⟩
  · exact absurd h2 (blind_limitCount _ _ _ _ _)
  obtain ⟨-, rfl⟩ := limitCount_eq_ok.1 hcount
  exact h2

lemma readMap_eq_error (h : readMap element max n s = .error .duplicateKey left) :
    ∃ m t j new u, orderMark max n s = .ok m t ∧ times (readEntry element) j [] t = .ok new u ∧
      j < m ∧ (element u = .error .duplicateKey left ∨ ∃ k w, element u = .ok k w ∧
        ((∃ e ∈ new, e.1 = k) ∨ element w = .error .duplicateKey left)) := by
  rw [readMap_eq] at h
  rcases bind_eq_error.1 (limits_eq_error h) with hm | ⟨m, t, hmark, hes⟩
  · exact absurd hm (blind_orderMark _ _ _ _)
  obtain ⟨j, new, u, hj, hnew, hu⟩ := readEntries_eq_error List.Pairwise.nil hes
  rw [List.append_nil] at hu
  exact ⟨m, t, j, new, u, hmark, hnew, hj, hu⟩

lemma readList_eq_error (h : readList element n s = .error .duplicateKey left) :
    ∃ m vs u, m < n ∧ times element m [] s = .ok vs u ∧ element u = .error .duplicateKey left := by
  rcases bind_eq_error.1 (limits_eq_error h) with hvs | ⟨vs, t, -, ht⟩
  · exact times_eq_error hvs
  · cases ht

lemma repeatsKey_of_error (h : readWithin max room s = .error .duplicateKey left) :
    RepeatsKey max room s := by
  induction room generalizing s left with
  | zero => cases h
  | succ room ih =>
    cases front s with
    | list hh =>
      rw [readWithin_list hh] at h
      obtain ⟨m, vs, u, hm, hvs, hu⟩ := readList_eq_error h
      exact .item (.intro hh hvs hm) (ih hu)
    | map hh =>
      rw [readWithin_map hh] at h
      obtain ⟨m, t, j, new, u, hmark, hnew, hj, hu⟩ := readMap_eq_error h
      have ha := AtKey.intro hh hmark hnew hj
      rcases hu with hu | ⟨k, w, hk, ⟨e, he, rfl⟩ | hw⟩
      · exact .key ha (ih hu)
      · exact .here ha hk he (compare_eq_eq.2 rfl)
      · exact .value ha hk (ih hw)
    | flat heq _ herr =>
      rw [heq] at h
      exact absurd h (herr left)

/-! ### Keys by their bytes -/

/-- So many entries, each put in its place, with the bytes of the keys that have been read. -/
def readEntriesByBytes (element : Reader Value) : Nat → List Bytes → ValueMap → Reader Value
  | 0, _, m => return m.toValue
  | n + 1, seen, m => do
    let k ← element
    if k.pack ∈ seen then throw .duplicateKey
    let v ← element
    readEntriesByBytes element n (k.pack :: seen) (m.insert k v)

lemma pack_inj_of_sized {w : Value} (hv : v.Sized) (hw : w.Sized) (h : v.pack = w.pack) : v = w :=
  (separates hv hw [] [] (congrArg (· ++ []) h)).1

/-- An entry goes to the same place from either end. -/
lemma insert_reverse (v : Value) (hdone : Assoc.Ascends descending done)
    (hnone : Assoc.find? descending k done = none) :
    Assoc.insert Value.compare k v done.reverse = (Assoc.insert descending k v done).reverse := by
  have hup := ascends_reverse hdone
  have hnone' : Assoc.find? Value.compare k done.reverse = none := by
    rw [Assoc.find?_eq_none hup, List.map_reverse, List.mem_reverse]
    exact (Assoc.find?_eq_none hdone).1 hnone
  refine Assoc.eq_of_mem_iff (Assoc.ascends_insert k v hup)
    (ascends_reverse (Assoc.ascends_insert k v hdone)) fun e => ?_
  rw [List.mem_reverse, (Assoc.insert_perm hnone').mem_iff, (Assoc.insert_perm hnone).mem_iff,
    List.mem_cons, List.mem_cons, List.mem_reverse]

/-- The bytes of the keys tell the same as a search for the key. -/
lemma readEntriesByBytes_eq (h : Yields element (Decoded room)) {seen : List Bytes}
    (hdone : Assoc.Ascends descending done) (hkeys : ∀ e ∈ done, Decoded room e.1)
    (hseen : ∀ bs, bs ∈ seen ↔ ∃ e ∈ done, e.1.pack = bs) (n : Nat) :
    readEntriesByBytes element n seen ⟨done.reverse⟩ = readEntries element n done := by
  induction n generalizing seen done with
  | zero => rfl
  | succ n ih =>
    refine h.bind_congr fun k hk => ?_
    -- Keys that are read have sizes with numerals, so their bytes tell them apart.
    have hmem : k.pack ∈ seen ↔ (Assoc.find? descending k done).isSome := by
      rw [hseen, Option.isSome_iff_ne_none, ne_eq, Assoc.find?_eq_none hdone, not_not,
        List.mem_map]
      refine exists_congr fun e => and_congr_right fun he => ⟨fun hpack => ?_, congrArg pack⟩
      exact pack_inj_of_sized (sized_of_admitted (hkeys e he).admitted)
        (sized_of_admitted hk.admitted) hpack
    by_cases hdup : (Assoc.find? descending k done).isSome
    · rw [if_pos hdup, if_pos (hmem.2 hdup)]
      rfl
    · rw [if_neg hdup, if_neg (hmem.not.2 hdup)]
      rw [Option.not_isSome_iff_eq_none] at hdup
      refine bind_congr fun v => ?_
      have hins : (ValueMap.mk done.reverse).insert k v =
          ⟨(Assoc.insert descending k v done).reverse⟩ :=
        congrArg ValueMap.mk (insert_reverse v hdone hdup)
      have hperm := Assoc.insert_perm (v := v) hdup
      rw [hins]
      refine ih (Assoc.ascends_insert k v hdone) (fun e he => ?_) fun bs => ?_
      · rcases Assoc.mem_insert he with rfl | he
        · exact hk
        · exact hkeys e he
      · simp only [hperm.mem_iff, List.mem_cons, hseen, exists_eq_or_imp, eq_comm]

/-! ### Maps that are read -/

/--
A map that is read has all the entries that stand on the wire, each under its key, and the same map
is read if they change places. A key is turned down just if it comes twice, in whatever form; this
is so for every map at any depth, and whether keys are held against each other or their bytes are.
-/
theorem readWithin_keeps_entries (max room : Nat) (s : Bytes) :
    (∀ es t, readWithin max (room + 1) s = .ok (.map es) t →
      ∃ n k hd mark parts new, Header .map n hd ∧ OrderMark max k mark ∧
        s = hd ++ (mark ++ (parts.flatten ++ t)) ∧
        List.Forall₂ (Reads (readEntry (readWithin max room))) parts new ∧
        n = k + new.length ∧ (ValueMap.mk es).size = new.length ∧
        (∀ e ∈ new, (ValueMap.mk es).get? e.1 = some e.2) ∧
        ∀ (parts' : List Bytes) (t' : Bytes), parts'.Perm parts →
          readWithin max (room + 1) (hd ++ (mark ++ (parts'.flatten ++ t'))) = .ok (.map es) t') ∧
    (∀ left, readWithin max room s = .error .duplicateKey left → RepeatsKey max room s) ∧
    (RepeatsKey max room s → ∀ v t, readWithin max room s ≠ .ok v t) ∧
    ∀ n, readEntriesByBytes (readWithin max room) n [] .empty =
      readEntries (readWithin max room) n [] := by
  refine ⟨fun es t h => ?_, fun left => repeatsKey_of_error, fun h v t => h.ne_ok, fun n => ?_⟩
  · obtain ⟨hf, ht⟩ := framed_takes_readWithin max room
    have hu := unmarked_readWithin max room
    cases front s with
    | list hh =>
      rw [readWithin_list hh, readList_eq_ok] at h
      obtain ⟨-, -, vs, -, hv⟩ := h
      cases hv
    | @map n hd rest hh =>
      rw [readWithin_map hh, readMap_iff_parts hf ht hu] at h
      obtain ⟨hn, k, mark, parts, new, es, hk, rfl, rfl, hparts, hv, hes, hperm⟩ := h
      cases hv
      refine ⟨_, k, hd, mark, parts, new, hh, hk, rfl, hparts, rfl, hperm.length_eq, ?_, ?_⟩
      · intro e he
        exact (Assoc.find?_eq_some hes).2 (hperm.mem_iff.2 he)
      · intro parts' t' hp
        rw [readWithin_map hh]
        exact readMap_perm hf ht hu hn hk hparts hes hperm hp
    | flat heq hok _ =>
      rw [heq] at h
      exact (hok _ _ h).1.elim
  · exact readEntriesByBytes_eq (yields_readWithin max room) List.Pairwise.nil nofun (by simp) n

set_option maxRecDepth 2000 in
/-- A key in two forms within a list, and two keys out of order behind a mark of their order. -/
theorem readWithin_keeps_entries_marked :
    RepeatsKey 2 3 [0x91, 0x82, 1, 0xc0, 0xcc, 1, 0xc3] ∧
      readWithin 2 3 [0x83, 0xc7, 0, 1, 0xc0, 2, 0xc0, 0xcc, 1, 0xc3, 7] =
        .ok (.map [(.int 1, .bool true), (.int 2, .nil)]) [7] ∧
      ∃ n k hd, Header .map n hd ∧ n = k + 2 ∧
        hd <+: [0x83, 0xc7, 0, 1, 0xc0, 2, 0xc0, 0xcc, 1, 0xc3, 7] := by
  have hdup : readWithin 2 3 [0x91, 0x82, 1, 0xc0, 0xcc, 1, 0xc3] = .error .duplicateKey [0xc3] :=
    rfl
  have hread : readWithin 2 3 [0x83, 0xc7, 0, 1, 0xc0, 2, 0xc0, 0xcc, 1, 0xc3, 7] =
      .ok (.map [(.int 1, .bool true), (.int 2, .nil)]) [7] := rfl
  obtain ⟨n, k, hd, mark, parts, new, hh, -, hs, -, hn, hsize, -⟩ :=
    (readWithin_keeps_entries 2 2 _).1 _ _ hread
  have hlen : new.length = 2 := hsize.symm
  rw [hlen] at hn
  exact ⟨(readWithin_keeps_entries 2 3 _).2.1 _ hdup, hread, n, k, hd, hh, hn, _, hs.symm⟩

end Value

end NestedPath
