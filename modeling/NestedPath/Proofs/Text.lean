import Mathlib.Tactic.Lemma
import NestedPath.Bytes
import NestedPath.Text.Blank

/-!
Texts and their bytes: UTF-8 loses nothing, text in ASCII has one byte a character, and blanks are
trimmed off a text that has none.
-/

namespace NestedPath

/-! ### UTF-8 -/

lemma length_utf8 (s : String) : (utf8 s).length = s.utf8ByteSize := rfl

lemma ofUtf8?_eq_some {bs : Bytes} {s : String} : ofUtf8? bs = some s ↔ bs = utf8 s := by
  unfold ofUtf8? utf8 String.fromUTF8?
  constructor
  · intro h
    split at h
    · cases h
      rfl
    · cases h
  · rintro rfl
    rw [dif_pos s.isValidUTF8]
    rfl

lemma utf8_inj {s t : String} : utf8 s = utf8 t ↔ s = t := by
  constructor
  · intro h
    have hs := ofUtf8?_eq_some.2 (Eq.refl (utf8 s))
    rw [ofUtf8?_eq_some.2 h] at hs
    exact (Option.some.inj hs).symm
  · rintro rfl
    rfl

def asciiByte (c : Char) : UInt8 := UInt8.ofNat c.toNat

lemma utf8EncodeChar_of_lt {c : Char} (h : c.toNat < 128) :
    String.utf8EncodeChar c = [asciiByte c] := by
  have h : c.val.toNat ≤ 127 := Nat.lt_succ_iff.1 h
  rw [String.utf8EncodeChar, if_pos h]
  rfl

lemma utf8_ofList (cs : List Char) (h : ∀ c ∈ cs, c.toNat < 128) :
    utf8 (String.ofList cs) = cs.map asciiByte := by
  rw [utf8, String.toByteArray_ofList, List.utf8Encode]
  simp only [List.data_toByteArray]
  induction cs with
  | nil => rfl
  | cons c cs ih =>
    have ih := ih fun d hd => h d (List.mem_cons_of_mem _ hd)
    rw [List.flatMap_cons, utf8EncodeChar_of_lt (h c List.mem_cons_self), ih]
    rfl

/-! ### Blanks -/

lemma dropWhile_of_forall {cs : List Char} (h : ∀ c ∈ cs, isBlank c = false) :
    cs.dropWhile isBlank = cs := by
  cases cs with
  | nil => rfl
  | cons c cs => rw [List.dropWhile_cons, h c List.mem_cons_self]; rfl

lemma trimBlank_append {ws cs xs : List Char} (hw : ∀ c ∈ ws, isBlank c = true)
    (hc : ∀ c ∈ cs, isBlank c = false) (hx : ∀ c ∈ xs, isBlank c = true) :
    trimBlank (ws ++ cs ++ xs) = cs := by
  have hx' : ∀ c ∈ xs.reverse, isBlank c = true := fun c h => hx c (List.mem_reverse.1 h)
  have hc' : ∀ c ∈ cs.reverse, isBlank c = false := fun c h => hc c (List.mem_reverse.1 h)
  rw [trimBlank, List.append_assoc, List.dropWhile_append_of_pos hw]
  cases cs with
  | nil =>
    have hnil := @List.dropWhile_append_of_pos _ isBlank xs [] hx
    rw [List.append_nil] at hnil
    rw [List.nil_append, hnil]
    rfl
  | cons c cs =>
    rw [List.cons_append, List.dropWhile_cons, hc c List.mem_cons_self, if_neg Bool.false_ne_true,
      ← List.cons_append, List.reverse_append, List.dropWhile_append_of_pos hx',
      dropWhile_of_forall hc', List.reverse_reverse]

end NestedPath
