import Mathlib.Algebra.Group.Nat.Defs
import QueryVars.Var.Basic

/-!
# The byte order of names

Names are compared by their code points, which is also the order of their bytes.
UTF-8 writes a code point as a lead byte and its last digits to the base 64. Of
two code points the smaller one has the smaller lead byte, or the same one and
then as many digits; so where two names first differ, their bytes do.
-/

namespace QueryVars

namespace Utf8

variable {xs ys : List UInt8}

-- ---------------------------------------------------------------------------
-- Lists of bytes
-- ---------------------------------------------------------------------------

theorem compare_cons_eq_lt_iff {a b : UInt8} :
    compare (a :: xs) (b :: ys) = .lt ↔ a < b ∨ a = b ∧ compare xs ys = .lt := by
  rw [List.compare_cons_cons, Ordering.then_eq_lt, Std.compare_eq_lt, Std.compare_eq_iff_eq]

theorem compare_append_left (front : List UInt8) :
    compare (front ++ xs) (front ++ ys) = compare xs ys := by
  induction front with
  | nil => rfl
  | cons a front ih => simp [ih]

theorem ofNat_lt_ofNat {a b : Nat} (hab : a < b) (hb : b < 256) :
    UInt8.ofNat a < UInt8.ofNat b := by
  rw [UInt8.lt_iff_toNat_lt, UInt8.toNat_ofNat_of_lt' (Nat.lt_trans hab hb),
    UInt8.toNat_ofNat_of_lt' hb]
  exact hab

-- ---------------------------------------------------------------------------
-- One code point
-- ---------------------------------------------------------------------------

/-- The last `k` digits of `v` to the base 64, each marked as a continuation. -/
def continuation : Nat → Nat → List UInt8
  | 0, _ => []
  | k + 1, v => continuation k (v / 64) ++ [UInt8.ofNat (v % 64 + 0x80)]

/-- A code point with its lead byte and the number of bytes behind that. -/
inductive Form : Nat → Nat → Nat → Prop
  | one {v} : v ≤ 0x7f → Form v v 0
  | two {v} : 0x7f < v → v ≤ 0x7ff → Form v (v / 64 + 0xc0) 1
  | three {v} : 0x7ff < v → v ≤ 0xffff → Form v (v / 4096 + 0xe0) 2
  | four {v} : 0xffff < v → v < 0x110000 → Form v (v / 262144 + 0xf0) 3

variable {v w k l : Nat}

theorem form (c : Char) : ∃ lead k, Form c.val.toNat lead k ∧
    String.utf8EncodeChar c = UInt8.ofNat lead :: continuation k c.val.toNat := by
  have hc : c.val.toNat < 0x110000 := by
    have h := c.valid
    simp only [UInt32.isValidChar, Nat.isValidChar] at h
    omega
  fun_cases String.utf8EncodeChar c with
  | case1 v h1 => exact ⟨_, _, .one h1, rfl⟩
  | case2 v h1 h2 =>
    refine ⟨_, _, .two (by omega) h2, ?_⟩
    rw [Nat.mod_eq_of_lt (by omega)]
    rfl
  | case3 v h1 h2 h3 =>
    refine ⟨_, _, .three (by omega) h3, ?_⟩
    rw [Nat.mod_eq_of_lt (show v / 4096 < 16 by omega)]
    rfl
  | case4 v h1 h2 h3 =>
    refine ⟨_, _, .four (by omega) hc, ?_⟩
    rw [Nat.mod_eq_of_lt (show v / 262144 < 8 by omega)]
    simp only [continuation, Nat.div_div_eq_div_mul]
    rfl

theorem Form.lead_lt {lead : Nat} (h : Form v lead k) : lead < 256 := by
  cases h <;> omega

/-- Lead bytes never fall, and one that is shared leaves the rest to the digits. -/
theorem Form.lead_lt_or_eq {a b : Nat} (hv : Form v a k) (hw : Form w b l) (h : v < w) :
    a < b ∨ a = b ∧ k = l ∧ v / 64 ^ k = w / 64 ^ k := by
  cases hv <;> cases hw <;> simp <;> omega

theorem compare_continuation (h : v < w) (hk : v / 64 ^ k = w / 64 ^ k) :
    compare (continuation k v ++ xs) (continuation k w ++ ys) = .lt := by
  induction k generalizing v w xs ys with
  | zero =>
    rw [Nat.pow_zero, Nat.div_one, Nat.div_one] at hk
    omega
  | succ k ih =>
    rw [Nat.pow_succ', ← Nat.div_div_eq_div_mul, ← Nat.div_div_eq_div_mul] at hk
    simp only [continuation, List.append_assoc, List.singleton_append]
    -- The digits in front decide, or they are equal and the last ones do.
    have hfront : v / 64 ≤ w / 64 := Nat.div_le_div_right (Nat.le_of_lt h)
    rcases Nat.lt_or_eq_of_le hfront with hlt | heq
    · exact ih hlt hk
    · rw [heq, compare_append_left, compare_cons_eq_lt_iff]
      exact .inl (ofNat_lt_ofNat (by omega) (by omega))

theorem compare_char {c d : Char} (h : c < d) :
    compare (String.utf8EncodeChar c ++ xs) (String.utf8EncodeChar d ++ ys) = .lt := by
  obtain ⟨a, k, hc, hcs⟩ := form c
  obtain ⟨b, l, hd, hds⟩ := form d
  rw [hcs, hds, List.cons_append, List.cons_append, compare_cons_eq_lt_iff]
  rcases hc.lead_lt_or_eq hd h with hab | ⟨rfl, rfl, hk⟩
  · exact .inl (ofNat_lt_ofNat hab hd.lead_lt)
  · exact .inr ⟨rfl, compare_continuation h hk⟩

-- ---------------------------------------------------------------------------
-- Text
-- ---------------------------------------------------------------------------

def bytes (text : String) : List UInt8 := text.toByteArray.data.toList

theorem bytes_eq (text : String) : bytes text = text.toList.flatMap String.utf8EncodeChar := by
  rw [bytes, ← String.utf8Encode_toList, List.utf8Encode, List.toList_data_toByteArray]

theorem compare_chars {cs ds : List Char} (h : cs < ds) :
    compare (cs.flatMap String.utf8EncodeChar) (ds.flatMap String.utf8EncodeChar) = .lt := by
  induction h with
  | @nil d ds =>
    obtain ⟨lead, k, -, hd⟩ := form d
    rw [List.flatMap_cons, hd]
    rfl
  | rel h => exact compare_char h
  | cons _ ih =>
    rw [List.flatMap_cons, List.flatMap_cons, compare_append_left]
    exact ih

theorem compare_bytes_of_lt {s t : String} (h : compare s t = .lt) :
    compare (bytes s) (bytes t) = .lt := by
  have hlt : s < t := compareOfLessAndEq_eq_lt.1 h
  rw [bytes_eq, bytes_eq]
  exact compare_chars hlt

theorem compare_bytes (s t : String) : compare (bytes s) (bytes t) = compare s t := by
  cases h : compare s t with
  | lt => exact compare_bytes_of_lt h
  | eq =>
    obtain rfl := Std.LawfulEqCmp.eq_of_compare h
    exact Std.ReflCmp.compare_self
  | gt => exact Std.OrientedCmp.gt_of_lt (compare_bytes_of_lt (Std.OrientedCmp.lt_of_gt h))

end Utf8

end QueryVars
