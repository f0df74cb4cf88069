import Mathlib

/-!
# Byte memory and bit fields

A flat 64-bit byte memory with little-endian accesses of any width, seen through a base address,
and the insertion of a bit field into a word.

* `ByteMem.load`, `ByteMem.store` — accesses of `n` bits;
* `ByteMem.view` — the memory from a base address on, and `load_view`, `store_view`: an access
  through the view is an access at the base plus the address;
* `load_store_self`, `load_store_below` — a load after a store;
* `load_setWidth`, `store_first`, `store_outside` — the first byte of an access, and the bytes
  outside it;
* `Crosses` — the access crosses a 16-byte boundary, and `crosses_iff`: a test of one bit;
* `insertBits` — a field of a word replaced.
-/

namespace PS4Recomp.Library

/-- Register numbers are literals of `Fin 32`. -/
instance neZero_32 : NeZero 32 := ⟨by decide⟩

/-- A byte for every address. -/
abbrev ByteMem := BitVec 64 → BitVec 8

namespace ByteMem

/-- The `k` bytes from an address on, as a number. -/
def loadNat (m : ByteMem) (a : BitVec 64) : ℕ → ℕ
  | 0 => 0
  | k + 1 => loadNat m a k + (m (a + BitVec.ofNat 64 k)).toNat * 256 ^ k

/-- A little-endian load of `n` bits. -/
def load (m : ByteMem) (n : ℕ) (a : BitVec 64) : BitVec n := BitVec.ofNat n (m.loadNat a (n / 8))

/-- A little-endian store of `n` bits. -/
def store (m : ByteMem) {n : ℕ} (a : BitVec 64) (v : BitVec n) : ByteMem := fun b =>
  let d := (b - a).toNat
  if d < n / 8 then BitVec.ofNat 8 (v.toNat / 256 ^ d) else m b

/-- The memory seen from a base address. -/
def view (base : BitVec 64) (m : ByteMem) : ByteMem := fun a => m (base + a)

theorem loadNat_view (base : BitVec 64) (m : ByteMem) (a : BitVec 64) (k : ℕ) :
    (m.view base).loadNat a k = m.loadNat (base + a) k := by
  induction k with
  | zero => rfl
  | succ k ih =>
      show loadNat _ a k + (m (base + (a + _))).toNat * _ = loadNat _ _ k + _
      rw [ih, ← BitVec.add_assoc]

theorem load_view (base : BitVec 64) (m : ByteMem) (n : ℕ) (a : BitVec 64) :
    (m.view base).load n a = m.load n (base + a) := by
  rw [load, load, loadNat_view]

theorem store_view (base : BitVec 64) (m : ByteMem) {n : ℕ} (a : BitVec 64) (v : BitVec n) :
    (m.store (base + a) v).view base = (m.view base).store a v := by
  funext b
  have hsub : base + b - (base + a) = b - a := by ring
  show (if (base + b - (base + a)).toNat < n / 8 then _ else _) = _
  rw [hsub]
  rfl

theorem load_setWidth (m : ByteMem) {n : ℕ} (hn : 8 ≤ n) (a : BitVec 64) :
    (m.load n a).setWidth 8 = m a := by
  have hlow : ∀ k, m.loadNat a (k + 1) % 256 = (m a).toNat := by
    intro k
    induction k with
    | zero =>
        have hlt := (m a).isLt
        simp only [loadNat, BitVec.ofNat_eq_ofNat, BitVec.add_zero, pow_zero, mul_one, zero_add]
        omega
    | succ k ih =>
        have hlt := (m a).isLt
        rw [loadNat, Nat.add_mod, ih, pow_succ, ← mul_assoc, Nat.mul_mod_left]
        omega
  obtain ⟨k, hk⟩ : ∃ k, n / 8 = k + 1 := ⟨n / 8 - 1, by omega⟩
  obtain ⟨d, hd⟩ : ∃ d, n = 8 + d := ⟨n - 8, by omega⟩
  apply BitVec.eq_of_toNat_eq
  rw [load, BitVec.toNat_setWidth, BitVec.toNat_ofNat, hk, ← hlow k, hd, pow_add]
  exact Nat.mod_mul_right_mod _ _ _

theorem store_first (m : ByteMem) {n : ℕ} (hn : 8 ≤ n) (a : BitVec 64) (v : BitVec n) :
    m.store a v a = v.setWidth 8 := by
  have h0 : (a - a).toNat = 0 := by
    rw [sub_self]
    rfl
  unfold store
  dsimp only
  rw [h0, if_pos (by omega)]
  apply BitVec.eq_of_toNat_eq
  simp

theorem store_outside (m : ByteMem) {n : ℕ} {a b : BitVec 64} (v : BitVec n)
    (h : n / 8 ≤ (b - a).toNat) : m.store a v b = m b := by
  unfold store
  dsimp only
  rw [if_neg (by omega)]

theorem loadNat_store (m : ByteMem) {n : ℕ} (a : BitVec 64) (v : BitVec n) (hn : n / 8 ≤ 2 ^ 64) {k : ℕ}
    (hk : k ≤ n / 8) : (m.store a v).loadNat a k = v.toNat % 256 ^ k := by
  induction k with
  | zero => rw [pow_zero, Nat.mod_one]; rfl
  | succ k ih =>
      have hd : (a + BitVec.ofNat 64 k - a).toNat = k := by
        rw [add_sub_cancel_left, BitVec.toNat_ofNat, Nat.mod_eq_of_lt (by omega)]
      have hbyte : (m.store a v) (a + BitVec.ofNat 64 k) = BitVec.ofNat 8 (v.toNat / 256 ^ k) := by
        unfold store
        dsimp only
        rw [hd, if_pos (by omega)]
      have hmod : v.toNat % 256 ^ (k + 1) = v.toNat % 256 ^ k + 256 ^ k * (v.toNat / 256 ^ k % 256) := by
        rw [pow_succ]
        exact Nat.mod_mul
      rw [loadNat, ih (by omega), hbyte, BitVec.toNat_ofNat, hmod, Nat.mul_comm (256 ^ k)]

theorem load_store_self (m : ByteMem) {n k : ℕ} (hk : n = 8 * k) (hn : k ≤ 2 ^ 64) (a : BitVec 64)
    (v : BitVec n) : (m.store a v).load n a = v := by
  have hdiv : n / 8 = k := by omega
  have hpow : 256 ^ k = 2 ^ n := by rw [hk, pow_mul]; norm_num
  rw [load, hdiv, loadNat_store m a v (by omega) (by omega), hpow]
  apply BitVec.eq_of_toNat_eq
  rw [BitVec.toNat_ofNat, Nat.mod_mod, Nat.mod_eq_of_lt v.isLt]

theorem loadNat_congr {m m' : ByteMem} {a : BitVec 64} {k : ℕ}
    (h : ∀ j, j < k → m (a + BitVec.ofNat 64 j) = m' (a + BitVec.ofNat 64 j)) : m.loadNat a k = m'.loadNat a k := by
  induction k with
  | zero => rfl
  | succ k ih => rw [loadNat, loadNat, ih fun j hj => h j (by omega), h k (by omega)]

theorem load_store_below (m : ByteMem) {n w k j : ℕ} (hk : n / 8 = k) (hj : w / 8 = j) (hsum : k + j ≤ 2 ^ 64)
    (a : BitVec 64) (v : BitVec w) : (m.store (a + BitVec.ofNat 64 k) v).load n a = m.load n a := by
  rw [load, load, hk]
  congr 1
  refine loadNat_congr fun i hi => store_outside m v ?_
  have hd : a + BitVec.ofNat 64 i - (a + BitVec.ofNat 64 k) = BitVec.ofNat 64 (2 ^ 64 - (k - i)) := by
    have hsplit : BitVec.ofNat 64 k = BitVec.ofNat 64 i + BitVec.ofNat 64 (k - i) := by
      rw [← BitVec.ofNat_add, Nat.add_sub_cancel' (by omega)]
    have hneg : BitVec.ofNat 64 (2 ^ 64 - (k - i)) = -BitVec.ofNat 64 (k - i) := by
      rw [eq_neg_iff_add_eq_zero, ← BitVec.ofNat_add, Nat.sub_add_cancel (by omega)]
      rfl
    rw [hneg, hsplit]
    ring
  rw [hd, BitVec.toNat_ofNat, Nat.mod_eq_of_lt (by omega), hj]
  omega

theorem loadNat_const (b : BitVec 8) (a : BitVec 64) (k : ℕ) :
    loadNat (fun _ => b) a k * 255 = b.toNat * (256 ^ k - 1) := by
  induction k with
  | zero => simp [loadNat]
  | succ k ih =>
      have hpos : 0 < 256 ^ k := by positivity
      obtain ⟨p, hp⟩ : ∃ p, 256 ^ k = p + 1 := ⟨256 ^ k - 1, by omega⟩
      have hstep : (p + 1) * 256 - 1 = 256 * p + 255 := by omega
      rw [loadNat, add_mul, ih, pow_succ, hp, hstep, Nat.add_sub_cancel]
      ring

end ByteMem

/-- An access of `k` bytes at `a` crosses a 16-byte boundary. -/
def Crosses (a : BitVec 64) (k : ℕ) : Prop := 16 < a.toNat % 16 + k

instance (a : BitVec 64) (k : ℕ) : Decidable (Crosses a k) := inferInstanceAs (Decidable (_ < _))

theorem crosses_add {base : BitVec 64} (hbase : base.toNat % 16 = 0) (a : BitVec 64) (k : ℕ) :
    Crosses (base + a) k ↔ Crosses a k := by
  have hmod : (base + a).toNat % 16 = a.toNat % 16 := by
    rw [BitVec.toNat_add]
    omega
  rw [Crosses, Crosses, hmod]

/-- The first and the last address of an access of at most 16 bytes differ in bit 4 exactly when it
crosses a 16-byte boundary. -/
theorem crosses_iff (a : BitVec 64) {k : ℕ} (hk : 0 < k) (hk16 : k ≤ 16) :
    ((a + BitVec.ofNat 64 (k - 1)) ^^^ a).getLsbD 4 = true ↔ Crosses a k := by
  have hbit : ∀ x : BitVec 64, x.getLsbD 4 = decide (x.toNat / 16 % 2 = 1) := by
    intro x
    rw [BitVec.getLsbD, Nat.testBit_eq_decide_div_mod_eq]
  have hlast : (a + BitVec.ofNat 64 (k - 1)).toNat = (a.toNat + (k - 1)) % 2 ^ 64 := by
    rw [BitVec.toNat_add, BitVec.toNat_ofNat, Nat.mod_eq_of_lt (by omega : k - 1 < 2 ^ 64)]
  rw [BitVec.getLsbD_xor, hbit, hbit, hlast, Crosses, bne_iff_ne, ne_eq, decide_eq_decide]
  omega

/-- The field of width `w` from bit `lo` on, replaced. -/
def insertBits (lo w : ℕ) (old : BitVec 64) (v : BitVec w) : BitVec 64 :=
  (old &&& ~~~((BitVec.allOnes w).setWidth 64 <<< lo)) ||| (v.setWidth 64 <<< lo)

theorem getLsbD_insertBits (lo w : ℕ) (old : BitVec 64) (v : BitVec w) {i : ℕ} (hi : i < 64) :
    (insertBits lo w old v).getLsbD i =
      if lo ≤ i ∧ i < lo + w then v.getLsbD (i - lo) else old.getLsbD i := by
  unfold insertBits
  simp only [BitVec.getLsbD_or, BitVec.getLsbD_and, BitVec.getLsbD_not, BitVec.getLsbD_shiftLeft,
    BitVec.getLsbD_setWidth, BitVec.getLsbD_allOnes, hi, decide_true, Bool.true_and]
  by_cases hlo : i < lo
  · simp [hlo, show ¬ lo ≤ i by omega]
  · by_cases hw : i < lo + w
    · simp [hlo, hw, show i - lo < w by omega, show lo ≤ i by omega, show i - lo < 64 by omega]
    · simp [hlo, hw, show ¬ i - lo < w by omega, BitVec.getLsbD_of_ge v (i - lo) (by omega)]

end PS4Recomp.Library
