import Mathlib

/-!
# Rounding to multiples

* `roundUp` — a number rounded up to a multiple, `le_roundUp`, `dvd_roundUp`, `roundUp_le`,
  `roundUp_le_of_dvd` — to the lowest one;
* `toNat_and_not_add_and`, `toNat_sub_le_and_not` — a word with the bits of a mask cleared;
* `toNat_and_not_mask` — with the low bits cleared it is rounded down to a power of two,
  `toNat_roundUp_word`, `roundUp_word_wrap` — with the mask added first it is rounded up, or 0;
* `toNat_add_of_le` — the check that a sum has not wrapped.
-/

namespace PS4Recomp.Library

/-- A number rounded up to a multiple of `a`. -/
def roundUp (x a : ℕ) : ℕ := (x + a - 1) / a * a

theorem dvd_roundUp (x a : ℕ) : a ∣ roundUp x a := Nat.dvd_mul_left a _

theorem le_roundUp (x : ℕ) {a : ℕ} (ha : 0 < a) : x ≤ roundUp x a := by
  have hdiv := Nat.div_add_mod (x + a - 1) a
  have hmod := Nat.mod_lt (x + a - 1) ha
  rw [Nat.mul_comm] at hdiv
  unfold roundUp
  omega

theorem roundUp_le (x a : ℕ) : roundUp x a ≤ x + a - 1 := Nat.div_mul_le_self _ _

theorem roundUp_le_of_dvd {x a p : ℕ} (ha : 0 < a) (hx : x ≤ p) (hp : a ∣ p) : roundUp x a ≤ p := by
  obtain ⟨q, hq⟩ := hp
  have hdiv : (x + a - 1) / a ≤ q := by
    rw [Nat.div_le_iff_le_mul_add_pred ha]
    omega
  calc roundUp x a ≤ q * a := Nat.mul_le_mul_right a hdiv
    _ = p := by rw [hq, Nat.mul_comm]

variable {w : ℕ}

theorem toNat_and_not_add_and (x m : BitVec w) :
    (x &&& ~~~m).toNat + (x &&& m).toNat = x.toNat := by
  have hdisj : (x &&& ~~~m) &&& (x &&& m) = 0#w := by
    ext i hi
    simp
    tauto
  rw [← BitVec.toNat_add_of_and_eq_zero hdisj, BitVec.add_eq_or_of_and_eq_zero _ _ hdisj]
  congr 1
  ext i hi
  simp
  cases x[i] <;> cases m[i] <;> rfl

theorem toNat_and_not_le (x m : BitVec w) : (x &&& ~~~m).toNat ≤ x.toNat := by
  have h := toNat_and_not_add_and x m
  omega

theorem toNat_sub_le_and_not (x m : BitVec w) : x.toNat - m.toNat ≤ (x &&& ~~~m).toNat := by
  have h := toNat_and_not_add_and x m
  have hm : (x &&& m).toNat ≤ m.toNat := by
    rw [BitVec.toNat_and]
    exact Nat.and_le_right
  omega

/-- A word with its `k` low bits cleared is rounded down to a multiple of `2 ^ k`. -/
theorem toNat_and_not_mask (x : BitVec w) {k : ℕ} {m : BitVec w} (hm : m.toNat = 2 ^ k - 1) :
    (x &&& ~~~m).toNat = x.toNat / 2 ^ k * 2 ^ k := by
  have h := toNat_and_not_add_and x m
  rw [BitVec.toNat_and x m, hm, Nat.and_two_pow_sub_one_eq_mod] at h
  have hdiv := Nat.div_add_mod x.toNat (2 ^ k)
  rw [Nat.mul_comm] at hdiv
  omega

theorem toNat_pred_two_pow {a : BitVec w} {k : ℕ} (ha : a.toNat = 2 ^ k) :
    (a - 1).toNat = 2 ^ k - 1 := by
  have hpos : 0 < a.toNat := by rw [ha]; exact Nat.two_pow_pos k
  have hlt := a.isLt
  have hw : 0 < w := by
    by_contra hw
    have hzero : w = 0 := by omega
    subst hzero
    omega
  have hone : (1 : BitVec w).toNat = 1 := by
    show (BitVec.ofNat w 1).toNat = 1
    rw [BitVec.toNat_ofNat]
    exact Nat.mod_eq_of_lt (Nat.one_lt_two_pow_iff.2 (by omega))
  rw [BitVec.toNat_sub_of_le (by rw [BitVec.le_def, hone]; exact hpos), hone, ha]

/-- A word with the mask of a power of two added and cleared is rounded up to a multiple of it. -/
theorem toNat_roundUp_word {x a : BitVec w} {k : ℕ} (ha : a.toNat = 2 ^ k)
    (hwrap : x.toNat + a.toNat - 1 < 2 ^ w) :
    ((x + a - 1) &&& ~~~(a - 1)).toNat = roundUp x.toNat a.toNat := by
  have hpos : 0 < a.toNat := by rw [ha]; exact Nat.two_pow_pos k
  have hlt := a.isLt
  have hmask := toNat_pred_two_pow ha
  have hsum : (x + a - 1).toNat = x.toNat + a.toNat - 1 := by
    rw [add_sub_assoc, BitVec.toNat_add_of_lt (by rw [hmask]; omega), hmask, ha]
    omega
  rw [toNat_and_not_mask _ hmask, hsum, roundUp, ha]

theorem roundUp_word_wrap {x a : BitVec w} {k : ℕ} (ha : a.toNat = 2 ^ k)
    (hwrap : 2 ^ w ≤ x.toNat + a.toNat - 1) : ((x + a - 1) &&& ~~~(a - 1)).toNat = 0 := by
  have hpos : 0 < a.toNat := by rw [ha]; exact Nat.two_pow_pos k
  have hlt := a.isLt
  have hx := x.isLt
  have hmask := toNat_pred_two_pow ha
  have hsum : (x + a - 1).toNat = x.toNat + a.toNat - 1 - 2 ^ w := by
    rw [add_sub_assoc, BitVec.toNat_add, hmask, ← ha, Nat.mod_eq_sub_mod (by omega),
      Nat.mod_eq_of_lt (by omega)]
    omega
  rw [toNat_and_not_mask _ hmask, hsum, Nat.div_eq_of_lt (by omega), Nat.zero_mul]

/-- A sum that is not below its first term has not wrapped. -/
theorem toNat_add_of_le {x y : BitVec w} (h : x ≤ x + y) : (x + y).toNat = x.toNat + y.toNat := by
  by_cases hlt : x.toNat + y.toNat < 2 ^ w
  · exact BitVec.toNat_add_of_lt hlt
  · have hx := x.isLt
    have hy := y.isLt
    rw [BitVec.le_def, BitVec.toNat_add, Nat.mod_eq_sub_mod (by omega),
      Nat.mod_eq_of_lt (by omega)] at h
    omega

end PS4Recomp.Library
