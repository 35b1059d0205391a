import NestedPath.Proofs.Nesting

/-!
Lists of packed objects, taken apart into their elements.

The elements stand one behind the other and none is the beginning of another object, so there is
only one way to take a list apart.
-/

namespace NestedPath.Reader

/-- The elements of a list with nothing behind it. -/
def elements (max : Nat) (l : String) : Reader (List Bytes) := do
  let n ← arrayHeader l
  let os ← times (object max l) n []
  atEnd
  return os

/-- The bytes are a list of these objects, of whatever depth, and nothing more. -/
def IsList (os : List Bytes) (bs : Bytes) : Prop := ∃ max l, elements max l bs = .ok os []

/-- The bytes are a list of so many objects, of whatever depth, and nothing more. -/
def IsListOf (n : Nat) (bs : Bytes) : Prop :=
  ∃ max l os, elements max l bs = .ok os [] ∧ os.length = n

variable {max n : Nat} {l : String} {hd bs last s t : Bytes} {os os' front done : List Bytes}

lemma isObject_number (n : Int64) : IsObject (Item.bytes (.number n)) :=
  isObject_iff.2 ⟨0, Nests.number (Item.lead_number n)⟩

lemma levels_number (n : Int64) : (Item.bytes (.number n)).levels = 0 :=
  (Nests.number (Item.lead_number n)).levels_eq

lemma number_bytes (n : Int64) (l : String) : number l (Item.bytes (.number n)) = .ok n [] := by
  have h := (Item.lead_number n).reads_number l []
  rwa [List.append_nil] at h

/-- A header in front of as many objects as it calls for is one object with them. -/
lemma isObject_of_reads_head (hh : Reads (head "") hd (0, os.length)) (ho : ∀ o ∈ os, IsObject o) :
    IsObject (hd ++ os.flatten) := by
  have hos : Nests (os.map Bytes.levels) (os.flatMap fun o => o) :=
    Nests.map fun o h => (ho o h).nests
  rw [List.flatMap_id'] at hos
  rw [← os.length_map (f := Bytes.levels)] at hh
  exact isObject_iff.2 ⟨_, Nests.node hh hos⟩

lemma isObject_flatten (hn : Lead .fixarray .array os.length hd) (ho : ∀ o ∈ os, IsObject o) :
    IsObject (hd ++ os.flatten) :=
  isObject_of_reads_head (Nests.reads_head_array hn) ho

/-- A list is taken apart if there is room for each of its elements. -/
lemma elements_flatten (hn : Lead .fixarray .array os.length hd) (ho : ∀ o ∈ os, IsObject o)
    (hmax : ∀ o ∈ os, o.levels ≤ max) : elements max l (hd ++ os.flatten) = .ok os [] := by
  have hone (o) (h : o ∈ os) : Reads (object max l) o o :=
    reads_object_of_nests (ho o h).nests (hmax o h)
  have hos := Reads.times os hone []
  rw [List.append_nil, List.flatMap_id'] at hos
  rw [elements, bind_of_ok (hn.reads_arrayHeader l _), bind_of_ok hos]
  rfl

lemma isList_flatten (hn : Lead .fixarray .array os.length hd) (ho : ∀ o ∈ os, IsObject o) :
    IsList os (hd ++ os.flatten) := by
  have hroom : ∀ d ∈ os.map Bytes.levels, d < levelsOver (os.map Bytes.levels) :=
    levelsOver_lt.1 (Nat.lt_succ_self _)
  have hmax (o) (h : o ∈ os) : o.levels ≤ levelsOver (os.map Bytes.levels) :=
    Nat.le_of_lt (hroom _ (List.mem_map_of_mem h))
  exact ⟨_, "", elements_flatten hn ho hmax⟩

lemma isListOf_flatten (hn : Lead .fixarray .array os.length hd) (ho : ∀ o ∈ os, IsObject o) :
    IsListOf os.length (hd ++ os.flatten) := by
  obtain ⟨max, l, h⟩ := isList_flatten hn ho
  exact ⟨max, l, os, h, rfl⟩

/-- What is taken one object after the other was there one behind the other. -/
lemma times_object_eq_ok {s t : Bytes} (h : times (object max l) n done s = .ok os t) :
    ∃ new, os = done.reverse ++ new ∧ new.length = n ∧ s = new.flatten ++ t ∧
      ∀ o ∈ new, IsObject o := by
  induction n generalizing done s with
  | zero =>
    obtain ⟨rfl, rfl⟩ := pure_eq_ok.1 h
    exact ⟨[], by simp⟩
  | succ n ih =>
    obtain ⟨o, u, h1, h2⟩ := bind_eq_ok.1 h
    obtain ⟨rfl, ho⟩ := object_eq_ok.1 h1
    obtain ⟨new, rfl, hlen, rfl, hnew⟩ := ih h2
    refine ⟨o :: new, by simp, by simp [hlen], by simp, ?_⟩
    exact List.forall_mem_cons.2 ⟨ho.isObject, hnew⟩

lemma elements_eq_ok (hn : Lead .fixarray .array n hd) (h : elements max l (hd ++ bs) = .ok os []) :
    os.length = n ∧ os.flatten = bs ∧ ∀ o ∈ os, IsObject o := by
  rw [elements, bind_of_ok (hn.reads_arrayHeader l _)] at h
  obtain ⟨os', t, hos, h⟩ := bind_eq_ok.1 h
  obtain ⟨x, u, hend, h⟩ := bind_eq_ok.1 h
  obtain ⟨rfl, rfl⟩ := pure_eq_ok.1 h
  obtain ⟨rfl, -⟩ := atEnd_eq_ok.1 hend
  obtain ⟨new, rfl, hlen, rfl, hnew⟩ := times_object_eq_ok hos
  exact ⟨hlen, by simp, hnew⟩

/-- Runs of equally many objects that begin the same bytes are the same. -/
lemma flatten_append_inj (ho : ∀ o ∈ os, IsObject o) (ho' : ∀ o ∈ os', IsObject o)
    (hlen : os.length = os'.length) (e : os.flatten ++ s = os'.flatten ++ t) :
    os = os' ∧ s = t := by
  induction os generalizing os' with
  | nil =>
    obtain rfl := List.length_eq_zero_iff.1 hlen.symm
    exact ⟨rfl, e⟩
  | cons o os ih =>
    rcases os' with - | ⟨o', os'⟩
    · cases hlen
    obtain ⟨ho, hos⟩ := List.forall_mem_cons.1 ho
    obtain ⟨ho', hos'⟩ := List.forall_mem_cons.1 ho'
    rw [List.flatten_cons, List.flatten_cons, List.append_assoc, List.append_assoc] at e
    obtain ⟨rfl, hrest⟩ := ho.append_inj ho' e
    obtain ⟨rfl, hst⟩ := ih hos hos' (Nat.succ.inj hlen) hrest
    exact ⟨rfl, hst⟩

/-- Behind all elements but one stands the last of them. -/
lemma isObject_of_flatten (hf : ∀ o ∈ front, IsObject o) (ho : ∀ o ∈ os, IsObject o)
    (hlen : os.length = front.length + 1) (e : os.flatten = front.flatten ++ last) :
    IsObject last := by
  rcases os.eq_nil_or_concat with rfl | ⟨init, o, rfl⟩
  · cases hlen
  rw [List.concat_eq_append] at ho hlen e
  obtain ⟨hinit, hlast⟩ := List.forall_mem_append.1 ho
  rw [List.flatten_append, List.flatten_singleton] at e
  rw [List.length_append, List.length_singleton] at hlen
  obtain ⟨-, rfl⟩ := flatten_append_inj hinit hf (Nat.succ.inj hlen) e
  exact hlast o List.mem_cons_self

/-- Bytes behind the other elements complete a list just if they are an object. -/
theorem isListOf_append_iff (hn : Lead .fixarray .array (front.length + 1) hd)
    (hf : ∀ o ∈ front, IsObject o) :
    IsListOf (front.length + 1) (hd ++ (front.flatten ++ last)) ↔ IsObject last := by
  constructor
  · rintro ⟨max, l, os, h, -⟩
    obtain ⟨hlen, e, ho⟩ := elements_eq_ok hn h
    exact isObject_of_flatten hf ho hlen e
  · intro h
    have hos : ∀ o ∈ front ++ [last], IsObject o :=
      List.forall_mem_append.2 ⟨hf, List.forall_mem_singleton.2 h⟩
    have hlen : (front ++ [last]).length = front.length + 1 := by simp
    have hl := isListOf_flatten (hlen ▸ hn) hos
    rwa [hlen, List.flatten_append, List.flatten_singleton] at hl

end NestedPath.Reader
