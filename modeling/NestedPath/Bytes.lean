/-!
Bytes as lists, the big-endian numerals they spell, and the UTF-8 text they hold.

Reading the low `k` digits of a number back gives the number modulo `1 <<< (8 * k)`, so a number
below that survives.
-/

namespace NestedPath

abbrev Bytes := List UInt8

/-- The low `k` base-256 digits of `n`, most significant first. -/
def bigEndian : Nat → Nat → Bytes
  | 0, _ => []
  | k + 1, n => UInt8.ofNat (n >>> (8 * k)) :: bigEndian k n

def ofBigEndian (bs : Bytes) : Nat := bs.foldl (fun n b => n * 256 + b.toNat) 0

/-- A digit stands for 256 times as much one place further up. -/
theorem place_succ (k : Nat) : 1 <<< (8 * (k + 1)) = 1 <<< (8 * k) * 256 := by
  rw [Nat.mul_succ, Nat.shiftLeft_add, Nat.shiftLeft_eq (1 <<< (8 * k))]

theorem place_pos (k : Nat) : 0 < 1 <<< (8 * k) := by
  rw [Nat.one_shiftLeft]
  exact Nat.two_pow_pos _

theorem shiftRight_place (n k : Nat) : n >>> (8 * k) = n / 1 <<< (8 * k) := by
  rw [Nat.shiftRight_eq_div_pow, Nat.one_shiftLeft]

@[simp] theorem length_bigEndian (k n : Nat) : (bigEndian k n).length = k := by
  induction k with
  | zero => rfl
  | succ k ih => simp [bigEndian, ih]

theorem foldl_bigEndian (k n m : Nat) :
    (bigEndian k n).foldl (fun n b => n * 256 + b.toNat) m =
      m * 1 <<< (8 * k) + n % 1 <<< (8 * k) := by
  induction k generalizing m with
  | zero => simp [bigEndian, Nat.mod_one]
  | succ k ih =>
    have hdigit : (UInt8.ofNat (n >>> (8 * k))).toNat = n / 1 <<< (8 * k) % 256 := by
      rw [shiftRight_place, UInt8.toNat_ofNat']
    rw [bigEndian, List.foldl_cons, ih, place_succ, Nat.mod_mul, hdigit, Nat.add_mul, Nat.mul_assoc,
      Nat.mul_comm 256, Nat.mul_comm (n / 1 <<< (8 * k) % 256)]
    omega

theorem ofBigEndian_bigEndian (k n : Nat) : ofBigEndian (bigEndian k n) = n % 1 <<< (8 * k) := by
  rw [ofBigEndian, foldl_bigEndian, Nat.zero_mul, Nat.zero_add]

def Bytes.split? (n : Nat) (bs : Bytes) : Option (Bytes × Bytes) :=
  let front := bs.take n
  if front.length = n then some (front, bs.drop n) else none

/-- There are at least `n` bytes. No more than `n` of them are looked at. -/
def Bytes.atLeast (n : Nat) (bs : Bytes) : Bool := (bs.take n).length == n

theorem Bytes.atLeast_iff {n : Nat} {bs : Bytes} : bs.atLeast n = true ↔ n ≤ bs.length := by
  simp only [atLeast, List.length_take, beq_iff_eq]
  omega

def utf8 (s : String) : Bytes := s.toByteArray.data.toList

/-- The text with these UTF-8 bytes, if they are well formed. -/
def ofUtf8? (bs : Bytes) : Option String := String.fromUTF8? ⟨bs.toArray⟩

/-- Cuts a list into pieces of `k + 1` elements; the last may be shorter, none is empty. -/
def chunksOnto {α : Type} (k : Nat) (done : List (List α)) : List α → List (List α)
  | [] => done.reverse
  | a :: as => chunksOnto k ((a :: as.take k) :: done) (as.drop k)
termination_by as => as.length

def fours {α : Type} (as : List α) : List (List α) := chunksOnto 3 [] as

def threes {α : Type} (as : List α) : List (List α) := chunksOnto 2 [] as

end NestedPath
