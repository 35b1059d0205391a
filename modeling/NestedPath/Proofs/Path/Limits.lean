import NestedPath.Proofs.Path.Grammar
import NestedPath.Proofs.Value.Front

/-!
What a limit of reading does: nothing but to stop a reader that goes beyond it.

A reader under narrower limits goes step by step with the same reader under wider ones, until it
fails for want of room.
-/

namespace NestedPath

open Reader

namespace Reader

variable {α β : Type} {e : DecodeError} {r r' : Reader α} {f f' : α → Reader β}
  {max max' room room' : Nat}

/-- The first reader does what the second does, except that it may stop short with one error. -/
def Curbs (e : DecodeError) (r r' : Reader α) : Prop :=
  ∀ s, r s = r' s ∨ ∃ left, r s = .error e left

lemma Curbs.refl (r : Reader α) : Curbs e r r := fun _ => .inl rfl

lemma Curbs.throw (e : DecodeError) (r' : Reader α) : Curbs e (throw e) r' :=
  fun s => .inr ⟨s, rfl⟩

lemma Curbs.bind (hr : Curbs e r r') (hf : ∀ a, Curbs e (f a) (f' a)) :
    Curbs e (r >>= f) (r' >>= f') := by
  intro s
  rcases hr s with h | ⟨left, h⟩
  · rw [bind_apply, bind_apply, h]
    cases r' s with
    | ok a t => exact hf a t
    | error e t => exact .inl rfl
  · exact .inr ⟨left, bind_of_error h⟩

lemma Curbs.times (h : Curbs e r r') : ∀ n done, Curbs e (times r n done) (times r' n done)
  | 0, _ => Curbs.refl _
  | n + 1, done => h.bind fun a => h.times n (a :: done)

lemma Curbs.skipTimes {one one' : Reader Unit} (h : Curbs e one one') :
    ∀ n, Curbs e (skipTimes one n) (skipTimes one' n)
  | 0 => Curbs.refl _
  | n + 1 => h.bind fun _ => h.skipTimes n

/-- What is taken in spite of the limit is taken without it. -/
lemma Curbs.le (h : Curbs e r r') : Le r r' := by
  intro s a t hr
  rcases h s with hs | ⟨left, hs⟩
  · rw [← hs, hr]
  · rw [hr] at hs
    cases hs

lemma curbs_skipWithin (max max' : Nat) (l : String) (h : room ≤ room') :
    Curbs (.tooDeep max) (skipWithin max l room) (skipWithin max' l room') := by
  induction room generalizing room' with
  | zero => exact Curbs.throw _ _
  | succ room ih =>
    obtain ⟨room', rfl⟩ : ∃ n, room' = n + 1 := ⟨room' - 1, by omega⟩
    refine (Curbs.refl _).bind fun b => (Curbs.refl _).bind fun x => (Curbs.refl _).bind fun _ => ?_
    exact (ih (Nat.le_of_succ_le_succ h)).skipTimes x.2

lemma curbs_skip (l : String) (h : max ≤ max') :
    Curbs (.tooDeep max) (skip max l) (skip max' l) :=
  curbs_skipWithin max max' l (Nat.succ_le_succ h)

lemma curbs_object (l : String) (h : max ≤ max') :
    Curbs (.tooDeep max) (object max l) (object max' l) := by
  intro s
  rcases curbs_skip l h s with hs | ⟨left, hs⟩
  · refine .inl ?_
    rw [object, object, taken, taken, hs]
  · refine .inr ⟨left, ?_⟩
    rw [object, taken, hs]

end Reader

namespace Value

variable {e : DecodeError} {element element' : Reader Value} {max max' room room' : Nat}

/-! ### Values -/

lemma curbs_readList (h : Curbs e element element') (n : Nat) :
    Curbs e (readList element n) (readList element' n) := by
  refine (Curbs.refl _).bind fun _ => (Curbs.refl _).bind fun _ => ?_
  exact (h.times n []).bind fun _ => Curbs.refl _

lemma curbs_readEntries (h : Curbs e element element') (n : Nat) (es : List (Value × Value)) :
    Curbs e (readEntries element n es) (readEntries element' n es) := by
  induction n generalizing es with
  | zero => exact Curbs.refl _
  | succ n ih =>
    refine h.bind fun k => ?_
    split
    · exact (Curbs.refl _).bind fun _ => h.bind fun v => ih _
    · exact h.bind fun v => ih _

/-- The object beside the mark of the order is under the same limit as the whole value. -/
lemma curbs_readMap (hmax : max ≤ max') (h : Curbs (.tooDeep max) element element') (n : Nat) :
    Curbs (.tooDeep max) (readMap element max n) (readMap element' max' n) := by
  refine (Curbs.refl _).bind fun _ => (Curbs.refl _).bind fun _ => ?_
  split
  · exact Curbs.refl _
  refine (Curbs.refl _).bind fun ordered => ?_
  split
  · refine (Curbs.refl _).bind fun _ => (curbs_skip _ hmax).bind fun _ => ?_
    exact curbs_readEntries h _ _
  · exact curbs_readEntries h _ _

lemma curbs_readWithin (hmax : max ≤ max') (h : room ≤ room') :
    Curbs (.tooDeep max) (readWithin max room) (readWithin max' room') := by
  induction room generalizing room' with
  | zero => exact Curbs.throw _ _
  | succ room ih =>
    obtain ⟨room', rfl⟩ : ∃ n, room' = n + 1 := ⟨room' - 1, by omega⟩
    have ih := ih (Nat.le_of_succ_le_succ h)
    intro s
    cases front s with
    | list hh =>
      rw [readWithin_list hh, readWithin_list hh]
      exact curbs_readList ih _ _
    | map hh =>
      rw [readWithin_map hh, readWithin_map hh]
      exact curbs_readMap hmax ih _ _
    | flat heq => exact .inl ((heq max room).trans (heq max' room').symm)

end Value

namespace Path

variable {limits limits' : ReadLimits} {bs t : Bytes} {p : Path} {n : Nat}

/-! ### Paths -/

lemma curbs_readPayload (hd : limits.depth ≤ limits'.depth) (id : UInt32) :
    Curbs (.tooDeep limits.depth) (readPayload limits id) (readPayload limits' id) := by
  unfold readPayload
  split
  · exact (curbs_object _ hd).bind fun _ => Curbs.refl _
  · exact (Value.curbs_readWithin hd (Nat.succ_le_succ hd)).bind fun _ => Curbs.refl _

lemma curbs_readSegment (hd : limits.depth ≤ limits'.depth) :
    Curbs (.tooDeep limits.depth) (readSegment limits) (readSegment limits') := by
  refine (Curbs.refl _).bind fun n => ?_
  split
  · exact (Curbs.refl _).bind fun _ => (curbs_readPayload hd _).bind fun _ => Curbs.refl _
  · exact (curbs_readPayload hd _).bind fun _ => Curbs.refl _

/-- Behind a count that is in order only the number of segments can be beyond a limit. -/
lemma readSegments_of_readLength (limits : ReadLimits) (hpos : 1 ≤ n)
    (h : readLength bs = .ok (2 * n) t) :
    readSegments limits bs =
      if limits.segments < n then .error (.tooLong "context" n limits.segments) t
      else times (readSegment limits) n [] t := by
  rw [readSegments, bind_of_ok h, if_neg (by omega), if_neg (by omega),
    Nat.mul_div_cancel_left _ (by decide)]
  split <;> rfl

lemma decode_wider (hd : limits.depth ≤ limits'.depth) (hs : limits.segments ≤ limits'.segments)
    (h : decode limits bs = .ok p) : decode limits' bs = .ok p := by
  obtain ⟨hpos, hmax, hd', parts, hh, rfl, hparts⟩ := readSegments_eq_ok.1 (decode_eq_ok.1 h)
  have hparts' := hparts.imp fun _ _ => (curbs_readSegment hd).le.reads
  exact decode_eq_ok.2
    (readSegments_eq_ok.2 ⟨hpos, Nat.le_trans hmax hs, hd', parts, hh, rfl, hparts'⟩)

lemma decode_narrower (hd : limits.depth ≤ limits'.depth) (h : decode limits' bs = .ok p) :
    if limits.segments < p.length
    then decode limits bs = .error (.tooLong "context" p.length limits.segments)
    else decode limits bs = .ok p ∨ decode limits bs = .error (.tooDeep limits.depth) := by
  obtain ⟨hpos, -, hd', parts, hh, rfl, hparts⟩ := readSegments_eq_ok.1 (decode_eq_ok.1 h)
  have hlen := readLength_header hh (parts.flatten ++ [])
  have hread := readSegments_of_readLength limits hpos hlen
  have htimes : times (readSegment limits') p.length [] (parts.flatten ++ []) = .ok p [] :=
    reads_times_flatten hparts []
  -- The number of segments is looked at before any of them is read.
  split
  · rename_i hmax
    rw [if_pos hmax] at hread
    rw [decode_eq]
    exact runOn_of_error (bind_of_error hread)
  · rename_i hmax
    rw [if_neg hmax] at hread
    rcases (curbs_readSegment hd).times p.length [] (parts.flatten ++ []) with heq | ⟨left, he⟩
    · rw [heq, htimes] at hread
      exact .inl (decode_eq_ok.2 hread)
    · rw [he] at hread
      refine .inr ?_
      rw [decode_eq]
      exact runOn_of_error (bind_of_error hread)

/--
Wider limits admit what narrower ones admit, as the same path. Where narrower limits turn down a
path that wider ones admit, one of the two is given as the reason: the number of segments if there
are too many of them, and the depth if not.
-/
theorem limits_only_filter (hd : limits.depth ≤ limits'.depth)
    (hs : limits.segments ≤ limits'.segments) :
    (∀ p, decode limits bs = .ok p → decode limits' bs = .ok p) ∧
      ∀ p e, decode limits' bs = .ok p → decode limits bs = .error e →
        e = .tooDeep limits.depth ∧ p.length ≤ limits.segments ∨
          e = .tooLong "context" p.length limits.segments ∧ limits.segments < p.length := by
  refine ⟨fun p => decode_wider hd hs, fun p e h he => ?_⟩
  have hcases := decode_narrower hd h
  rw [he] at hcases
  split at hcases
  · cases hcases
    exact .inr ⟨rfl, ‹_›⟩
  · rcases hcases with hcases | hcases
    · cases hcases
    · cases hcases
      exact .inl ⟨rfl, Nat.not_lt.1 ‹_›⟩

/-- A map whose order is marked beside a list, and two segments, under a level and a segment. -/
theorem limits_only_filter_marked :
    decode .strict [0x92, 0x22, 0x81, 0xc7, 0, 1, 0x91, 0x90] = .ok [.mapKey (.map [])] ∧
      decode ⟨0, 1⟩ [0x92, 0x22, 0x81, 0xc7, 0, 1, 0x91, 0x90] = .error (.tooDeep 0) ∧
      decode .strict [0x94, 0x10, 1, 0x10, 2] = .ok [.listIndex 1, .listIndex 2] ∧
      decode ⟨0, 1⟩ [0x94, 0x10, 1, 0x10, 2] = .error (.tooLong "context" 2 1) := by
  have hmarked : decode .strict [0x92, 0x22, 0x81, 0xc7, 0, 1, 0x91, 0x90] =
      .ok [.mapKey (.map [])] := rfl
  have htwo : decode .strict [0x94, 0x10, 1, 0x10, 2] = .ok [.listIndex 1, .listIndex 2] := rfl
  have hfilter (bs : Bytes) := @limits_only_filter ⟨0, 1⟩ .strict bs (by decide) (by decide)
  refine ⟨hmarked, ?_, htwo, ?_⟩
  · cases h : decode ⟨0, 1⟩ [0x92, 0x22, 0x81, 0xc7, 0, 1, 0x91, 0x90] with
    | ok p => cases h
    | error e =>
      rcases (hfilter _).2 _ _ hmarked h with ⟨rfl, -⟩ | ⟨-, hlt⟩
      · rfl
      · exact absurd hlt (by decide)
  · cases h : decode ⟨0, 1⟩ [0x94, 0x10, 1, 0x10, 2] with
    | ok p => cases h
    | error e =>
      rcases (hfilter _).2 _ _ htwo h with ⟨-, hle⟩ | ⟨rfl, -⟩
      · exact absurd hle (by decide)
      · rfl

end Path

end NestedPath
