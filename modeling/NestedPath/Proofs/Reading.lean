import Mathlib.Data.List.Forall2
import Mathlib.Tactic.Lemma
import NestedPath.Wire.Reader

/-!
What it means that a reader takes some bytes for a result, whatever stands behind them, and the
rules by which such statements are put together along the steps of a reader.
-/

namespace NestedPath

lemma Bytes.split?_append {bs : Bytes} (rest : Bytes) :
    (bs ++ rest).split? bs.length = some (bs, rest) := by
  simp [split?]

lemma Bytes.split?_eq_some {n : Nat} {bs front rest : Bytes} :
    bs.split? n = some (front, rest) ↔ bs = front ++ rest ∧ front.length = n := by
  constructor
  · intro h
    simp only [split?] at h
    split at h
    · cases h
      exact ⟨(List.take_append_drop n bs).symm, ‹_›⟩
    · cases h
  · rintro ⟨rfl, rfl⟩
    exact split?_append rest

namespace Reader

variable {α β : Type} {r : Reader α} {f : α → Reader β} {a : α} {b : β} {bs cs s t : Bytes}
  {p q : Prop}

/-! ### Single steps -/

lemma pure_apply (a : α) (s : Bytes) : (pure a : Reader α) s = .ok a s := rfl

lemma throw_apply (e : DecodeError) (s : Bytes) : (throw e : Reader α) s = .error e s := rfl

lemma bind_apply (r : Reader α) (f : α → Reader β) (s : Bytes) :
    (r >>= f) s = match r s with
      | .ok a t => f a t
      | .error e t => .error e t := by
  change EStateM.bind r f s = _
  unfold EStateM.bind
  cases r s <;> rfl

lemma bind_of_ok {u : Bytes} (h : r s = .ok a u) : (r >>= f) s = f a u := by
  rw [bind_apply, h]

lemma bind_of_error {e : DecodeError} (h : r s = .error e t) : (r >>= f) s = .error e t := by
  rw [bind_apply, h]

lemma bind_eq_ok : (r >>= f) s = .ok b t ↔ ∃ a u, r s = .ok a u ∧ f a u = .ok b t := by
  rw [bind_apply]
  cases h : r s with
  | ok a u =>
    refine ⟨fun hf => ⟨a, u, rfl, hf⟩, ?_⟩
    rintro ⟨_, _, ⟨⟩, hf⟩
    exact hf
  | error e u => simp

/-- A failure of two readers in a row is one of the first or, behind its success, of the second. -/
lemma bind_eq_error {e : DecodeError} : (r >>= f) s = .error e t ↔
    r s = .error e t ∨ ∃ a u, r s = .ok a u ∧ f a u = .error e t := by
  rw [bind_apply]
  cases h : r s with
  | ok a u => simp
  | error e u => simp

lemma pure_eq_ok {a' : α} : (pure a : Reader α) s = .ok a' t ↔ a = a' ∧ s = t := by
  rw [pure_apply, EStateM.Result.ok.injEq]

lemma throw_ne_ok {e : DecodeError} : (throw e : Reader α) s ≠ .ok a t := by
  simp [throw_apply]

lemma unless_eq_ok {γ : Type} {c : Prop} [Decidable c] {e : DecodeError} {g : γ → Reader α} :
    (if c then MonadExcept.throw e >>= g else r) s = .ok a t ↔ ¬ c ∧ r s = .ok a t := by
  split
  · exact ⟨nofun, fun h => absurd ‹c› h.1⟩
  · exact (and_iff_right ‹¬ c›).symm

lemma byte_eq_ok {l : String} {x : UInt8} : byte l s = .ok x t ↔ s = x :: t := by
  cases s <;> simp [byte]

lemma bytes_eq_ok {n : Nat} {l : String} {front : Bytes} :
    bytes n l s = .ok front t ↔ s = front ++ t ∧ front.length = n := by
  rw [← Bytes.split?_eq_some]
  unfold bytes
  split <;> simp_all

lemma uint_eq_ok {w n : Nat} {l : String} :
    uint w l s = .ok n t ↔ ∃ ds, s = ds ++ t ∧ ds.length = w ∧ ofBigEndian ds = n := by
  simp only [uint, bind_eq_ok, bytes_eq_ok, pure_eq_ok]
  constructor
  · rintro ⟨ds, u, ⟨rfl, hl⟩, hn, rfl⟩
    exact ⟨ds, rfl, hl, hn⟩
  · rintro ⟨ds, rfl, hl, hn⟩
    exact ⟨ds, t, ⟨rfl, hl⟩, hn, rfl⟩

lemma atEnd_eq_ok {x : Unit} : atEnd s = .ok x t ↔ s = [] ∧ t = [] := by
  cases s <;> simp [atEnd, eq_comm]

lemma runOn_eq_ok : runOn r s = .ok a ↔ ∃ t, r s = .ok a t := by
  unfold runOn
  cases r s <;> simp

lemma runOn_of_error {e : DecodeError} (h : r s = .error e t) : runOn r s = .error e := by
  rw [runOn, h]

/-! ### Bytes that a reader takes -/

/-- The reader takes the bytes for `a`, whatever follows them. -/
def Reads (r : Reader α) (bs : Bytes) (a : α) : Prop := ∀ rest, r (bs ++ rest) = .ok a rest

/-- The reader takes the bytes for `a` if `p` holds and fails on them if not, whatever follows. -/
def ReadsIf (p : Prop) (r : Reader α) (bs : Bytes) (a : α) : Prop :=
  ∀ rest, (p → r (bs ++ rest) = .ok a rest) ∧
    (¬ p → ∃ e left, r (bs ++ rest) = .error e left)

lemma Reads.pure (a : α) : Reads (pure a) [] a := fun _ => rfl

lemma Reads.bind (hr : Reads r bs a) (hf : Reads (f a) cs b) : Reads (r >>= f) (bs ++ cs) b := by
  intro rest
  rw [List.append_assoc, bind_of_ok (hr _), hf]

lemma Reads.bind_nil (hr : Reads r bs a) (hf : Reads (f a) [] b) : Reads (r >>= f) bs b := by
  have h := hr.bind hf
  rwa [List.append_nil] at h

/-- Two texts that begin with bytes a reader takes agree in these and in what is behind them. -/
lemma Reads.append_inj {a' : α} (h : Reads r bs a) (h' : Reads r cs a')
    (e : bs ++ s = cs ++ t) : a = a' ∧ s = t := by
  have h1 := h s
  rw [e, h' t] at h1
  cases h1
  exact ⟨rfl, rfl⟩

lemma reads_byte (l : String) (x : UInt8) : Reads (byte l) [x] x := fun _ => rfl

lemma reads_bytes (l : String) {n : Nat} (h : bs.length = n) : Reads (bytes n l) bs bs :=
  fun _ => bytes_eq_ok.2 ⟨rfl, h⟩

lemma reads_uint (l : String) {w n : Nat} (h : bs.length = w) (hn : ofBigEndian bs = n) :
    Reads (uint w l) bs n :=
  fun _ => uint_eq_ok.2 ⟨bs, rfl, h, hn⟩

lemma Reads.readsIf (h : Reads r bs a) : ReadsIf True r bs a :=
  fun rest => ⟨fun _ => h rest, fun hn => absurd trivial hn⟩

lemma ReadsIf.throw (e : DecodeError) (hp : ¬ p) : ReadsIf p (throw e : Reader α) bs a :=
  fun rest => ⟨fun h => absurd h hp, fun _ => ⟨e, bs ++ rest, rfl⟩⟩

lemma ReadsIf.reads (h : ReadsIf p r bs a) (hp : p) : Reads r bs a := fun rest => (h rest).1 hp

lemma ReadsIf.eq_ok_iff (h : ReadsIf p r bs a) : r (bs ++ s) = .ok a s ↔ p := by
  refine ⟨fun hr => ?_, (h s).1⟩
  by_cases hp : p
  · exact hp
  · obtain ⟨e, left, he⟩ := (h s).2 hp
    rw [he] at hr
    cases hr

lemma ReadsIf.congr (h : ReadsIf p r bs a) (e : p ↔ q) : ReadsIf q r bs a := by
  rwa [← propext e]

lemma ReadsIf.bind (hr : ReadsIf p r bs a) (hf : p → ReadsIf q (f a) cs b) :
    ReadsIf (p ∧ q) (r >>= f) (bs ++ cs) b := by
  intro rest
  rw [List.append_assoc]
  have hr := hr (cs ++ rest)
  by_cases hp : p
  · rw [bind_of_ok (hr.1 hp)]
    have hf := hf hp rest
    exact ⟨fun h => hf.1 h.2, fun h => hf.2 fun hq => h ⟨hp, hq⟩⟩
  · obtain ⟨e, left, h⟩ := hr.2 hp
    exact ⟨fun h => absurd h.1 hp, fun _ => ⟨e, left, bind_of_error h⟩⟩

/-- A step that cannot fail leaves the condition as it is. -/
lemma Reads.bind_if (hr : Reads r bs a) (hf : ReadsIf q (f a) cs b) :
    ReadsIf q (r >>= f) (bs ++ cs) b :=
  (hr.readsIf.bind fun _ => hf).congr (by simp)

lemma ReadsIf.bind_reads (hr : ReadsIf p r bs a) (hf : Reads (f a) cs b) :
    ReadsIf p (r >>= f) (bs ++ cs) b :=
  (hr.bind fun _ => hf.readsIf).congr (by simp)

lemma ReadsIf.bind_pure (g : α → β) (hr : ReadsIf p r bs a) :
    ReadsIf p (r >>= fun a => Pure.pure (g a)) bs (g a) := by
  have h := hr.bind_reads (f := fun a => (Pure.pure (g a) : Reader β)) (Reads.pure (g a))
  rwa [List.append_nil] at h

/-- A step that only looks at the bytes leaves them to the next. -/
lemma ReadsIf.look {c : β} {g : β → Reader α} {look : Reader β}
    (hl : ∀ rest, look (bs ++ rest) = .ok c (bs ++ rest)) (hg : ReadsIf p (g c) bs a) :
    ReadsIf p (look >>= g) bs a := by
  intro rest
  rw [bind_of_ok (hl rest)]
  exact hg rest

/-- A run of elements is read as long as every one of them is. -/
lemma ReadsIf.times {code : α → Bytes} {p : α → Prop} (as : List α)
    (h : ∀ a ∈ as, ReadsIf (p a) r (code a) a) (done : List α) :
    ReadsIf (∀ a ∈ as, p a) (times r as.length done) (as.flatMap code) (done.reverse ++ as) := by
  induction as generalizing done with
  | nil =>
    rw [List.append_nil]
    exact (Reads.pure done.reverse).readsIf.congr (by simp)
  | cons a as ih =>
    have ih := ih (fun a ha => h a (List.mem_cons_of_mem _ ha)) (a :: done)
    rw [List.reverse_cons, List.append_assoc, List.singleton_append] at ih
    exact ((h a List.mem_cons_self).bind fun _ => ih).congr List.forall_mem_cons.symm

lemma Reads.times {code : α → Bytes} (as : List α) (h : ∀ a ∈ as, Reads r (code a) a) :
    Reads (Reader.times r as.length []) (as.flatMap code) as :=
  (ReadsIf.times (p := fun _ => True) as (fun a ha => (h a ha).readsIf) []).reads fun _ _ => trivial

/-! ### Runs of a reader -/

/-- What was read before a run stands in front of its results and makes no other difference. -/
lemma times_eq_bind (r : Reader α) (n : Nat) (done : List α) :
    times r n done = times r n [] >>= fun new => Pure.pure (done.reverse ++ new) := by
  induction n generalizing done with
  | zero =>
    rw [times, times, pure_bind, List.reverse_nil, List.append_nil]
  | succ n ih =>
    rw [times, times, bind_assoc]
    refine bind_congr fun a => ?_
    rw [ih (a :: done), ih [a], bind_assoc]
    refine bind_congr fun new => ?_
    rw [pure_bind, List.reverse_cons, List.append_assoc, List.reverse_singleton]

lemma times_add (r : Reader α) (m n : Nat) (done : List α) :
    times r (m + n) done = times r m done >>= fun as => times r n as.reverse := by
  induction m generalizing done with
  | zero => rw [Nat.zero_add, times, pure_bind, List.reverse_reverse]
  | succ m ih =>
    rw [Nat.succ_add, times, times, bind_assoc]
    exact bind_congr fun a => ih (a :: done)

lemma times_succ_eq_ok {n : Nat} {as : List α} : times r (n + 1) [] s = .ok as t ↔
    ∃ a u new, r s = .ok a u ∧ times r n [] u = .ok new t ∧ as = a :: new := by
  rw [times, bind_eq_ok]
  constructor
  · rintro ⟨a, u, ha, h⟩
    rw [times_eq_bind] at h
    obtain ⟨new, v, hnew, hv⟩ := bind_eq_ok.1 h
    obtain ⟨rfl, rfl⟩ := pure_eq_ok.1 hv
    exact ⟨a, u, new, ha, hnew, rfl⟩
  · rintro ⟨a, u, new, ha, hnew, rfl⟩
    refine ⟨a, u, ha, ?_⟩
    rw [times_eq_bind]
    exact bind_eq_ok.2 ⟨new, t, hnew, rfl⟩

/-- Behind the beginning of a run that succeeds the reader succeeds once more. -/
lemma exists_of_times {m n : Nat} {as bs : List α} {u : Bytes} (hm : times r m [] s = .ok as u)
    (h : times r n [] s = .ok bs t) (hlt : m < n) :
    ∃ a v new, r u = .ok a v ∧ bs = as ++ a :: new := by
  obtain ⟨k, rfl⟩ : ∃ k, n = m + (k + 1) := ⟨n - m - 1, by omega⟩
  rw [times_add, bind_of_ok hm, times_eq_bind] at h
  obtain ⟨new, w, hnew, hw⟩ := bind_eq_ok.1 h
  obtain ⟨a, v, rest, ha, -, rfl⟩ := times_succ_eq_ok.1 hnew
  obtain ⟨rfl, -⟩ := pure_eq_ok.1 hw
  exact ⟨a, v, rest, ha, by rw [List.reverse_reverse]⟩

/-- A run fails where the reader does, behind as many successes as there were. -/
lemma times_eq_error {n : Nat} {done : List α} {e : DecodeError}
    (h : times r n done s = .error e t) :
    ∃ m as u, m < n ∧ times r m [] s = .ok as u ∧ r u = .error e t := by
  induction n generalizing done s with
  | zero => cases h
  | succ n ih =>
    rcases bind_eq_error.1 h with h | ⟨a, u, ha, h⟩
    · exact ⟨0, [], s, Nat.succ_pos n, rfl, h⟩
    · obtain ⟨m, as, v, hm, has, hv⟩ := ih h
      exact ⟨m + 1, a :: as, v, Nat.succ_lt_succ hm,
        times_succ_eq_ok.2 ⟨a, u, as, ha, has, rfl⟩, hv⟩

/-! ### What results have in common -/

/-- Every result of the reader has the property. -/
def Yields (r : Reader α) (P : α → Prop) : Prop := ∀ s a t, r s = .ok a t → P a

section

variable {P : α → Prop} {Q : β → Prop}

lemma Yields.pure (h : P a) : Yields (pure a) P := by
  intro s a' t hs
  obtain ⟨rfl, rfl⟩ := pure_eq_ok.1 hs
  exact h

lemma Yields.throw (e : DecodeError) : Yields (throw e : Reader α) P :=
  fun _ _ _ h => absurd h throw_ne_ok

lemma Yields.bind (hr : Yields r P) (hf : ∀ a, P a → Yields (f a) Q) : Yields (r >>= f) Q := by
  intro s b t h
  obtain ⟨a, u, h1, h2⟩ := bind_eq_ok.1 h
  exact hf a (hr s a u h1) u b t h2

/-- What a step results in may not matter. -/
lemma Yields.after (hf : ∀ a, Yields (f a) Q) : Yields (r >>= f) Q :=
  Yields.bind (P := fun _ => True) (fun _ _ _ _ => trivial) fun a _ => hf a

/-- Behind a check its opposite is known. -/
lemma Yields.unless {γ : Type} {c : Prop} [Decidable c] {e : DecodeError} {g : γ → Reader α}
    (h : ¬ c → Yields r P) : Yields (if c then MonadExcept.throw e >>= g else r) P := by
  split
  · exact Yields.bind (P := fun _ => False) (Yields.throw e) fun _ => False.elim
  · exact h ‹_›

lemma Yields.of_runOn (h : Yields r P) (hr : runOn r s = .ok a) : P a := by
  obtain ⟨t, ht⟩ := runOn_eq_ok.1 hr
  exact h _ _ _ ht

lemma yields_bytes (n : Nat) (l : String) : Yields (bytes n l) (·.length = n) :=
  fun _ _ _ h => (bytes_eq_ok.1 h).2

lemma Yields.times (h : Yields r P) (n : Nat) (done : List α) (hd : ∀ a ∈ done, P a) :
    Yields (times r n done) fun as => as.length = done.length + n ∧ ∀ a ∈ as, P a := by
  induction n generalizing done with
  | zero => exact Yields.pure ⟨List.length_reverse, fun a ha => hd a (List.mem_reverse.1 ha)⟩
  | succ n ih =>
    refine h.bind fun a ha => ?_
    have ih := ih (a :: done) (List.forall_mem_cons.2 ⟨ha, hd⟩)
    rwa [List.length_cons, Nat.add_right_comm] at ih

end

/-! ### Readers whose success is local -/

/--
Whatever the reader succeeds on begins with bytes that it takes: what stands behind them has no
part in the success.
-/
def Framed (r : Reader α) : Prop :=
  ∀ s a t, r s = .ok a t → ∃ bs, s = bs ++ t ∧ Reads r bs a

lemma Framed.reads (hr : Framed r) (h : r bs = .ok a []) : Reads r bs a := by
  obtain ⟨cs, hcs, hreads⟩ := hr _ _ _ h
  rwa [hcs, List.append_nil]

lemma Framed.pure (a : α) : Framed (pure a : Reader α) := by
  intro s a' t h
  obtain ⟨rfl, rfl⟩ := pure_eq_ok.1 h
  exact ⟨[], rfl, Reads.pure a⟩

lemma Framed.throw (e : DecodeError) : Framed (throw e : Reader α) :=
  fun _ _ _ h => absurd h throw_ne_ok

lemma Framed.bind (hr : Framed r) (hf : ∀ a, Framed (f a)) : Framed (r >>= f) := by
  intro s b t h
  obtain ⟨a, u, h1, h2⟩ := bind_eq_ok.1 h
  obtain ⟨bs, rfl, hbs⟩ := hr _ _ _ h1
  obtain ⟨cs, rfl, hcs⟩ := hf a _ _ _ h2
  exact ⟨bs ++ cs, (List.append_assoc ..).symm, hbs.bind hcs⟩

lemma framed_byte (l : String) : Framed (byte l) := by
  intro s x t h
  rw [byte_eq_ok] at h
  exact ⟨[x], h, reads_byte l x⟩

lemma framed_bytes (n : Nat) (l : String) : Framed (bytes n l) := by
  intro s front t h
  obtain ⟨rfl, hl⟩ := bytes_eq_ok.1 h
  exact ⟨front, rfl, reads_bytes l hl⟩

lemma framed_uint (w : Nat) (l : String) : Framed (uint w l) :=
  (framed_bytes w l).bind fun _ => Framed.pure _

lemma framed_int (w : Nat) (l : String) : Framed (int w l) :=
  (framed_uint w l).bind fun _ => Framed.pure _

/-- Behind a check only what passes it needs to be local. -/
lemma Framed.unless {γ : Type} {c : Prop} [Decidable c] {e : DecodeError} {g : γ → Reader α}
    (h : Framed r) : Framed (if c then MonadExcept.throw e >>= g else r) := by
  split
  · intro s a t hs
    cases hs
  · exact h

lemma framed_number (l : String) : Framed (number l) := by
  refine (framed_byte l).bind fun b => ?_
  unfold numberAfter?
  cases Marker.ofByte b with
  | fixint n => exact Framed.pure n
  | uint width => exact (framed_uint width l).bind fun _ => Framed.pure _
  | int width => exact framed_int width l
  | _ => exact Framed.throw _

lemma framed_arrayHeader (l : String) : Framed (arrayHeader l) := by
  refine (framed_byte l).bind fun b => ?_
  cases Marker.ofByte b with
  | fixarray n => exact Framed.pure n
  | array width => exact framed_uint width l
  | _ => exact Framed.throw _

lemma framed_skipTimes {one : Reader Unit} (h : Framed one) : ∀ n, Framed (skipTimes one n)
  | 0 => Framed.pure ()
  | n + 1 => h.bind fun _ => framed_skipTimes h n

lemma Framed.times (h : Framed r) : ∀ n done, Framed (Reader.times r n done)
  | 0, done => Framed.pure done.reverse
  | n + 1, done => h.bind fun a => Framed.times h n (a :: done)

/-- A run of elements is read from the bytes of its elements, one behind the other. -/
lemma reads_times_flatten {parts : List Bytes} {as : List α} (h : List.Forall₂ (Reads r) parts as) :
    Reads (Reader.times r as.length []) parts.flatten as := by
  induction h with
  | nil => exact Reads.pure []
  | @cons part a parts as ha _ ih =>
    intro rest
    rw [List.flatten_cons, List.append_assoc]
    exact times_succ_eq_ok.2 ⟨a, _, as, ha _, ih rest, rfl⟩

/-- What is local is read from the bytes of its elements and from nothing else. -/
lemma Framed.times_eq_ok (hr : Framed r) {n : Nat} {as : List α} :
    Reader.times r n [] s = .ok as t ↔
      as.length = n ∧ ∃ parts, s = parts.flatten ++ t ∧ List.Forall₂ (Reads r) parts as := by
  constructor
  · intro h
    induction n generalizing s as with
    | zero =>
      obtain ⟨rfl, rfl⟩ := pure_eq_ok.1 h
      exact ⟨rfl, [], rfl, .nil⟩
    | succ n ih =>
      obtain ⟨a, u, new, ha, hnew, rfl⟩ := times_succ_eq_ok.1 h
      obtain ⟨part, rfl, hpart⟩ := hr _ _ _ ha
      obtain ⟨rfl, parts, rfl, hparts⟩ := ih hnew
      exact ⟨rfl, part :: parts, by simp, .cons hpart hparts⟩
  · rintro ⟨rfl, parts, rfl, h⟩
    exact reads_times_flatten h t

/-! ### How much a reader takes -/

/-- Every success of the reader takes at least `n` bytes. -/
def Takes (n : Nat) (r : Reader α) : Prop := ∀ s a t, r s = .ok a t → t.length + n ≤ s.length

lemma Takes.mono {m n : Nat} (h : m ≤ n) (hr : Takes n r) : Takes m r := by
  intro s a t hs
  have := hr _ _ _ hs
  omega

lemma Framed.takes (h : Framed r) : Takes 0 r := by
  intro s a t hs
  obtain ⟨bs, rfl, -⟩ := h _ _ _ hs
  rw [List.length_append]
  omega

/-- What is local and needs a byte takes one. -/
lemma Framed.takes_one (h : Framed r) (hnil : ∀ a t, r [] ≠ .ok a t) : Takes 1 r := by
  intro s a t hs
  obtain ⟨bs, rfl, hbs⟩ := h s a t hs
  rcases bs with - | ⟨b, bs⟩
  · exact absurd (hbs []) (hnil a [])
  · rw [List.length_append, List.length_cons]
    omega

lemma Takes.throw (n : Nat) (e : DecodeError) : Takes n (throw e : Reader α) :=
  fun _ _ _ h => absurd h throw_ne_ok

lemma Takes.bind {m n : Nat} (hr : Takes m r) (hf : ∀ a, Takes n (f a)) :
    Takes (m + n) (r >>= f) := by
  intro s b t h
  obtain ⟨a, u, h1, h2⟩ := bind_eq_ok.1 h
  have := hr _ _ _ h1
  have := hf a _ _ _ h2
  omega

lemma Takes.after {n : Nat} (hr : Framed r) (hf : ∀ a, Takes n (f a)) : Takes n (r >>= f) := by
  have h := hr.takes.bind hf
  rwa [Nat.zero_add] at h

lemma takes_byte (l : String) : Takes 1 (byte l) := by
  intro s x t h
  rw [byte_eq_ok.1 h]
  exact Nat.le_refl _

lemma Takes.times {k : Nat} (h : Takes k r) : ∀ n done, Takes (n * k) (Reader.times r n done)
  | 0, done => by
    rw [Nat.zero_mul]
    exact (Framed.pure done.reverse).takes
  | n + 1, done => by
    rw [Nat.succ_mul, Nat.add_comm]
    exact h.bind fun a => Takes.times h n (a :: done)

lemma Takes.peek {n : Nat} {g : UInt8 → Reader α} {l : String} (ht : ∀ x, Takes n (g x)) :
    Takes n (Reader.peek l >>= g) := by
  intro s a t h
  rcases s with - | ⟨x, s⟩
  · cases h
  · exact ht x (x :: s) a t h

/-- A look at the next byte is part of what is taken if a byte is taken. -/
lemma Framed.peek {g : UInt8 → Reader α} {l : String} (hg : ∀ x, Framed (g x))
    (ht : ∀ x, Takes 1 (g x)) : Framed (Reader.peek l >>= g) := by
  intro s a t h
  rcases s with - | ⟨x, s⟩
  · cases h
  have h : g x (x :: s) = .ok a t := h
  obtain ⟨bs, hs, hbs⟩ := hg x _ _ _ h
  rcases bs with - | ⟨y, bs⟩
  · have := ht x _ _ _ h
    rw [hs, List.nil_append] at this
    omega
  · obtain rfl : x = y := (List.cons.inj hs).1
    exact ⟨x :: bs, hs, fun rest => hbs rest⟩

end Reader

end NestedPath
