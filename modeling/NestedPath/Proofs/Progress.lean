import NestedPath.Proofs.Extent
import NestedPath.Proofs.Traced

/-!
What becomes of a cursor, whatever reads move it.

A cursor that began at the front of some bytes stands between two of them or at an end after any
sequence of reads, of which some may have failed. It never goes back. A read of so many bytes that
fails does not move it, and a header, a number, an object or a value that is read moves it by a byte
at least. Hence a read begins one object or value more than there are bytes at most, however large
the counts are that it finds and the limit of depth that it is given.
-/

namespace NestedPath

open Reader

/-- The reads that move a cursor. -/
inductive Call where
  | peek (reading : String)
  | byte (reading : String)
  | bytes (n : Nat) (reading : String)
  | uint (width : Nat) (reading : String)
  | arrayHeader (reading : String)
  | number (reading : String)
  | object (max : Nat) (reading : String)
  | value (max : Nat)

namespace Call

variable {call : Call} {n : Nat}

abbrev Result : Call → Type
  | peek _ | byte _ => UInt8
  | bytes _ _ | object _ _ => Bytes
  | uint _ _ | arrayHeader _ => Nat
  | number _ => Int64
  | value _ => Value

def reader : (call : Call) → Reader call.Result
  | peek l => Reader.peek l
  | byte l => Reader.byte l
  | bytes n l => Reader.bytes n l
  | uint width l => Reader.uint width l
  | arrayHeader l => Reader.arrayHeader l
  | number l => Reader.number l
  | object max l => Reader.object max l
  | value max => Value.read max

/-- The read with the places at which it begins objects and values. -/
def traced : (call : Call) → Traced call.Result
  | peek l => liftM (Reader.peek l)
  | byte l => liftM (Reader.byte l)
  | bytes n l => liftM (Reader.bytes n l)
  | uint width l => liftM (Reader.uint width l)
  | arrayHeader l => liftM (Reader.arrayHeader l)
  | number l => liftM (Reader.number l)
  | object max l => Traced.object max l
  | value max => Traced.valueWithin max (max + 1)

/-- How many bytes are taken, if that is known beforehand. -/
def size? : Call → Option Nat
  | peek _ => some 0
  | byte _ => some 1
  | bytes n _ => some n
  | uint width _ => some width
  | arrayHeader _ | number _ | object _ _ | value _ => none

lemma reader_traced (call : Call) : call.traced.reader = call.reader := by
  cases call with
  | object max l => exact Traced.reader_object max l
  | value max => exact Traced.reader_valueWithin max (max + 1)
  | _ => rfl

lemma orderly_traced (call : Call) : call.traced.Orderly := by
  cases call with
  | peek l => exact Traced.orderly_liftM (allOrNone_peek l).forward
  | byte l => exact Traced.orderly_liftM (allOrNone_byte l).forward
  | bytes n l => exact Traced.orderly_liftM (allOrNone_bytes n l).forward
  | uint width l => exact Traced.orderly_liftM (allOrNone_uint width l).forward
  | arrayHeader l => exact Traced.orderly_liftM (forward_arrayHeader l)
  | number l => exact Traced.orderly_liftM (forward_number l)
  | object max l => exact Traced.orderly_object max l
  | value max => exact Traced.orderly_valueWithin max (max + 1)

lemma forward_reader (call : Call) : Forward call.reader := by
  rw [← reader_traced]
  exact call.orderly_traced.forward

lemma allOrNone_reader (h : call.size? = some n) : AllOrNone n call.reader := by
  cases call with
  | peek l =>
    cases h
    exact allOrNone_peek l
  | byte l =>
    cases h
    exact allOrNone_byte l
  | bytes n l =>
    cases h
    exact allOrNone_bytes _ l
  | uint width l =>
    cases h
    exact allOrNone_uint _ l
  | _ => cases h

lemma takes_reader (h : call.size? = none) : Takes 1 call.reader := by
  cases call with
  | arrayHeader l => exact (framed_arrayHeader l).takes_one nofun
  | number l => exact (framed_number l).takes_one nofun
  | object max l => exact (framed_object max l).takes_one nofun
  | value max => exact (Value.framed_read max).takes_one nofun
  | _ => cases h

end Call

namespace Cursor

variable {α : Type} {data : Bytes} {c : Cursor} {call : Call}

/-- The cursor stands between two bytes of the data or at an end. -/
structure Stands (data : Bytes) (c : Cursor) : Prop where
  data_eq : c.data = data
  position_le : c.position ≤ data.length
  position_add_remaining : c.position + c.remaining = data.length
  rest_eq : c.rest = data.drop c.position
  /-- From every position in front of the cursor there is a slice up to it. -/
  drop_eq : ∀ start ≤ c.position, data.drop start = c.sliceFrom start ++ c.rest

lemma stands_iff : Stands data c ↔ c.data = data ∧ c.rest <:+ data := by
  constructor
  · intro h
    rw [h.rest_eq]
    exact ⟨h.data_eq, List.drop_suffix _ _⟩
  · rintro ⟨rfl, hrest⟩
    have hlen := hrest.length_le
    have hdrop : c.rest = c.data.drop c.position := List.suffix_iff_eq_drop.1 hrest
    refine ⟨rfl, Nat.sub_le _ _, Nat.sub_add_cancel hlen, hdrop, fun start hstart => ?_⟩
    have htake : start ≤ (c.data.take c.position).length := by
      rw [List.length_take]
      exact Nat.le_min.2 ⟨hstart, hstart.trans (Nat.sub_le _ _)⟩
    have happend : c.data.take c.position ++ c.rest = c.data := by
      conv_rhs => rw [← List.take_append_drop c.position c.data, ← hdrop]
    rw [sliceFrom, ← List.drop_append_of_le_length htake, happend]

lemma stands_start (data : Bytes) : (start data).Stands data :=
  stands_iff.2 ⟨rfl, List.suffix_refl data⟩

/-! ### One read -/

/-- The cursor comes to what the reader leaves, be it by a success or a failure. -/
lemma read_snd (c : Cursor) (r : Reader α) : (c.read r).2 = ⟨c.data, left r c.rest⟩ := by
  unfold read left
  cases r c.rest <;> rfl

lemma read_fst_eq_ok {r : Reader α} {a : α} :
    (c.read r).1 = .ok a ↔ r c.rest = .ok a (c.read r).2.rest := by
  unfold read
  cases r c.rest <;> simp

lemma read_fst_eq_error {r : Reader α} {e : DecodeError} :
    (c.read r).1 = .error e ↔ r c.rest = .error e (c.read r).2.rest := by
  unfold read
  cases r c.rest <;> simp

/-- The read goes forward in the data, and stays there. -/
lemma Stands.read {r : Reader α} (h : c.Stands data) (hr : Forward r) :
    (c.read r).2.Stands data ∧ c.position ≤ (c.read r).2.position := by
  obtain ⟨rfl, hrest⟩ := stands_iff.1 h
  rw [read_snd]
  refine ⟨stands_iff.2 ⟨rfl, (hr c.rest).trans hrest⟩, ?_⟩
  exact Nat.sub_le_sub_left (hr c.rest).length_le _

/-- The positions at which a call begins objects and values. -/
def begun (c : Cursor) (call : Call) : List Nat :=
  (call.traced.begun c.rest).map fun rest => c.data.length - rest.length

/-- What a call that comes to an outcome does to a cursor. -/
structure Moves (call : Call) (c : Cursor) (outcome : Except DecodeError call.Result)
    (c' : Cursor) : Prop where
  position_le : c.position ≤ c'.position
  rest_eq : c.rest = c'.sliceFrom c.position ++ c'.rest
  /-- A read of so many bytes takes them. -/
  position_eq : ∀ n, call.size? = some n → ∀ a, outcome = .ok a → c'.position = c.position + n
  /-- A read of so many bytes takes none of them if it fails. -/
  eq_of_error : ∀ n, call.size? = some n → ∀ e, outcome = .error e → c' = c
  /-- Any other read takes one byte at least. -/
  position_lt : call.size? = none → ∀ a, outcome = .ok a → c.position < c'.position
  begun_mem : ∀ p ∈ c.begun call, c.position ≤ p ∧ p ≤ c'.position
  begun_pairwise : (c.begun call).Pairwise (· < ·)
  /-- The objects and values that are begun are one more than the bytes taken at most. -/
  length_begun : c.position + (c.begun call).length ≤ c'.position + 1

lemma begun_between (c : Cursor) (call : Call) :
    ∀ p ∈ c.begun call, c.position ≤ p ∧ p ≤ (c.read call.reader).2.position := by
  intro p hp
  obtain ⟨x, hx, rfl⟩ := List.mem_map.1 hp
  obtain ⟨hxs, hlx⟩ := call.orderly_traced.begun_suffix c.rest x hx
  rw [call.reader_traced] at hlx
  rw [read_snd]
  exact ⟨Nat.sub_le_sub_left hxs.length_le _, Nat.sub_le_sub_left hlx.length_le _⟩

lemma begun_increasing (h : c.Stands data) : (c.begun call).Pairwise (· < ·) := by
  obtain ⟨rfl, hrest⟩ := stands_iff.1 h
  refine List.pairwise_map.2 ((call.orderly_traced.descends c.rest).imp_of_mem ?_)
  intro x y hx _ hxy
  have hlen := ((call.orderly_traced.begun_suffix c.rest x hx).1.trans hrest).length_le
  omega

lemma begun_count (h : c.Stands data) :
    c.position + (c.begun call).length ≤ (c.read call.reader).2.position + 1 := by
  have hle := (h.read call.forward_reader).2
  -- Positions that rise from one to the next are as many as the places they are at.
  have hsub : c.begun call ⊆
      List.range' c.position ((c.read call.reader).2.position + 1 - c.position) := by
    intro p hp
    have hbetween := begun_between c call p hp
    rw [List.mem_range'_1]
    omega
  have hnodup : (c.begun call).Nodup := (begun_increasing h).imp Nat.ne_of_lt
  have hlen := (List.subperm_of_subset hnodup hsub).length_le
  rw [List.length_range'] at hlen
  omega

lemma Stands.moves (h : c.Stands data) (call : Call) :
    Moves call c (c.read call.reader).1 (c.read call.reader).2 where
  position_le := (h.read call.forward_reader).2
  rest_eq := by
    obtain ⟨hstands, hle⟩ := h.read call.forward_reader
    rw [h.rest_eq, hstands.drop_eq _ hle]
  position_eq n hn a ha := by
    rcases call.allOrNone_reader hn c.rest with ⟨b, hlen, hread⟩ | ⟨e, hread⟩
    · obtain ⟨rfl, hrest⟩ := stands_iff.1 h
      have hle := hrest.length_le
      rw [read_snd, left_of_ok hread]
      simp only [position, List.length_drop]
      omega
    · rw [read_fst_eq_ok, hread] at ha
      cases ha
  eq_of_error n hn e he := by
    rcases call.allOrNone_reader hn c.rest with ⟨b, hlen, hread⟩ | ⟨e', hread⟩
    · rw [read_fst_eq_error, hread] at he
      cases he
    · rw [read_snd, left_of_error hread]
  position_lt hn a ha := by
    obtain ⟨rfl, hrest⟩ := stands_iff.1 h
    have hle := hrest.length_le
    have htakes := call.takes_reader hn _ _ _ (read_fst_eq_ok.1 ha)
    simp only [position, read_snd] at htakes ⊢
    omega
  begun_mem := begun_between c call
  begun_pairwise := begun_increasing h
  length_begun := begun_count h

/-! ### Any number of reads -/

/-- The cursor to which some reads lead, be they successes or failures. -/
def after (c : Cursor) (calls : List Call) : Cursor :=
  calls.foldl (fun c call => (c.read call.reader).2) c

lemma after_append (c : Cursor) (calls more : List Call) :
    c.after (calls ++ more) = (c.after calls).after more :=
  List.foldl_append

lemma Stands.after (h : c.Stands data) (calls : List Call) :
    (c.after calls).Stands data ∧ c.position ≤ (c.after calls).position := by
  induction calls generalizing c with
  | nil => exact ⟨h, Nat.le_refl _⟩
  | cons call calls ih =>
    obtain ⟨hstands, hle⟩ := h.read call.forward_reader
    obtain ⟨hafter, hle'⟩ := ih hstands
    exact ⟨hafter, hle.trans hle'⟩

/--
Any reads, whether they succeed or fail, leave a cursor between two bytes of its data or at an end,
from where it goes forward only. What the next read begins on its way lies between where the cursor
stands and where it comes to stand.
-/
theorem reads_move_forward (data : Bytes) (calls : List Call) :
    ((start data).after calls).Stands data ∧
    (∀ more, ((start data).after calls).position ≤ ((start data).after (calls ++ more)).position) ∧
    ∀ call outcome c, ((start data).after calls).read call.reader = (outcome, c) →
      call.traced.reader = call.reader ∧ Moves call ((start data).after calls) outcome c := by
  obtain ⟨hstands, -⟩ := (stands_start data).after calls
  refine ⟨hstands, fun more => ?_, fun call outcome c hread => ⟨call.reader_traced, ?_⟩⟩
  · rw [after_append]
    exact (hstands.after more).2
  · have hmoves := hstands.moves call
    rwa [hread] at hmoves

set_option maxRecDepth 2000 in
/--
After a read of more bytes than there are, the head of a list with more elements than bytes is read,
or the list as far as it goes.
-/
theorem reads_move_forward_short_list :
    (start [0xdd, 0xff, 0xff, 0xff, 0xff, 0x91, 7]).after [.bytes 9 ""] =
        start [0xdd, 0xff, 0xff, 0xff, 0xff, 0x91, 7] ∧
      Moves (.arrayHeader "") (start [0xdd, 0xff, 0xff, 0xff, 0xff, 0x91, 7]) (.ok 0xffffffff)
        (ofPosition [0xdd, 0xff, 0xff, 0xff, 0xff, 0x91, 7] 5) ∧
      Moves (.object 0xffffffff "") (start [0xdd, 0xff, 0xff, 0xff, 0xff, 0x91, 7])
        (.error (.endOfInput "")) (ofPosition [0xdd, 0xff, 0xff, 0xff, 0xff, 0x91, 7] 7) ∧
      (start [0xdd, 0xff, 0xff, 0xff, 0xff, 0x91, 7]).begun (.object 0xffffffff "") =
        [0, 5, 6, 7] := by
  obtain ⟨-, -, hmoves⟩ :=
    reads_move_forward [0xdd, 0xff, 0xff, 0xff, 0xff, 0x91, 7] [.bytes 9 ""]
  exact ⟨rfl, (hmoves (.arrayHeader "") _ _ rfl).2, (hmoves (.object 0xffffffff "") _ _ rfl).2, rfl⟩

end Cursor

end NestedPath
