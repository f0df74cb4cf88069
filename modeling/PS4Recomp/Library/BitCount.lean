import Mathlib

/-!
# Counting bits

* `clz_toNat`, `ctz_unique` — leading and trailing zeros by the value; `clz_stop`, `ctz_stop`: in a
  wider word, with a one that stops the count;
* `find_range_ctz`, `find_reverse_clz` — the first and the last index with a property, in the word of
  those indexes;
* `ones` — the number of ones among the low bits of a number; `ones_add`: it splits at any bit;
* `pairs`, `nibbles`, `octets` — counts in groups of 2, 4 and 8 bits, all bytes at once; each acts byte
  by byte;
* `spread` — the counts of the bytes added up in the top byte by a multiplication;
* `popcount_word` — the ones of a word of `n` bytes.
-/

namespace PS4Recomp.Library.BitCount

/-! ### leading and trailing zeros -/

variable {w : ℕ}

theorem clz_toNat {x : BitVec w} (hx : x ≠ 0) : x.clz.toNat = w - 1 - Nat.log2 x.toNat := by
  have hw : 0 < w := by
    rcases Nat.eq_zero_or_pos w with rfl | h
    · exact absurd (BitVec.of_length_zero) hx
    · exact h
  have hne : x.toNat ≠ 0 := fun h => hx (BitVec.eq_of_toNat_eq h)
  have hlow := BitVec.two_pow_sub_clz_le_toNat_of_ne_zero hw hx
  have hhigh := BitVec.toNat_lt_two_pow_sub_clz (x := x)
  have hle : w - 1 - x.clz.toNat ≤ Nat.log2 x.toNat := (Nat.le_log2 hne).2 hlow
  have hlt : Nat.log2 x.toNat < w - x.clz.toNat := (Nat.log2_lt hne).2 hhigh
  omega

theorem clz_zero : (0 : BitVec w).clz.toNat = w := by
  have hzero : (0 : BitVec w).clz = BitVec.ofNat w w := BitVec.clz_eq_iff_eq_zero.2 rfl
  rw [hzero, BitVec.toNat_ofNat, Nat.mod_eq_of_lt Nat.lt_two_pow_self]

theorem ctz_unique {x : BitVec w} {k : ℕ} (hk : x.getLsbD k = true)
    (hlow : ∀ j, j < k → x.getLsbD j = false) : x.ctz.toNat = k := by
  have hx : x ≠ 0 := by
    rintro rfl
    rw [BitVec.ofNat_eq_ofNat, BitVec.getLsbD_zero] at hk
    cases hk
  rcases Nat.lt_trichotomy x.ctz.toNat k with h | h | h
  · have hbit := BitVec.getLsbD_true_ctz_of_ne_zero hx
    rw [hlow _ h] at hbit
    cases hbit
  · exact h
  · rw [BitVec.getLsbD_false_of_lt_ctz h] at hk
    cases hk

/-- The first index with a property is the number of trailing zeros of the word of those indexes. -/
theorem find_range_ctz {x : BitVec w} {n : ℕ} {p : ℕ → Bool}
    (hbit : ∀ j, x.getLsbD j = (decide (j < n) && p j)) (hx : x ≠ 0) :
    (List.range n).find? p = some x.ctz.toNat := by
  cases hfind : (List.range n).find? p with
  | none =>
      have hnone := List.find?_range_eq_none.1 hfind
      apply absurd _ hx
      apply BitVec.eq_of_getLsbD_eq
      intro j _
      rw [hbit, BitVec.ofNat_eq_ofNat, BitVec.getLsbD_zero]
      by_cases hj : j < n
      · have hp := hnone j hj
        rw [Bool.not_eq_true'] at hp
        rw [hp, Bool.and_false]
      · rw [decide_eq_false hj, Bool.false_and]
  | some k =>
      obtain ⟨hp, hmem, hlow⟩ := List.find?_range_eq_some.1 hfind
      have hk : x.getLsbD k = true := by
        rw [hbit, hp, decide_eq_true (List.mem_range.1 hmem)]
        rfl
      have hj : ∀ j, j < k → x.getLsbD j = false := by
        intro j hjk
        have hno := hlow j hjk
        rw [Bool.not_eq_true'] at hno
        rw [hbit, hno, Bool.and_false]
      rw [ctz_unique hk hj]

theorem find_reverse_range {p : ℕ → Bool} (n : ℕ) : ∀ {k : ℕ}, p k = true → k < n →
    (∀ j, k < j → j < n → p j = false) → (List.range n).reverse.find? p = some k := by
  induction n with
  | zero => intro k _ hk _; omega
  | succ n ih =>
      intro k hp hk hhigh
      rw [List.range_succ, List.reverse_append, List.reverse_singleton, List.singleton_append,
        List.find?_cons]
      by_cases hkn : k = n
      · rw [← hkn, hp]
      · rw [hhigh n (by omega) (by omega)]
        exact ih hp (by omega) fun j hkj hj => hhigh j hkj (by omega)

/-- The last such index is the place of the highest one. -/
theorem find_reverse_clz {x : BitVec w} {n : ℕ} {p : ℕ → Bool}
    (hbit : ∀ j, x.getLsbD j = (decide (j < n) && p j)) (hx : x ≠ 0) :
    (List.range n).reverse.find? p = some (w - 1 - x.clz.toNat) := by
  have hne : x.toNat ≠ 0 := fun h => hx (BitVec.eq_of_toNat_eq h)
  have hlog : x.toNat.log2 < w := (Nat.log2_lt hne).2 x.isLt
  have hplace : w - 1 - x.clz.toNat = x.toNat.log2 := by
    rw [clz_toNat hx]
    omega
  have htop : x.getLsbD x.toNat.log2 = true := Nat.testBit_log2 hne
  rw [hbit, Bool.and_eq_true, decide_eq_true_eq] at htop
  rw [hplace]
  refine find_reverse_range n htop.2 htop.1 fun j hj hjn => ?_
  have hhigh : x.getLsbD j = false := by
    apply Nat.testBit_lt_two_pow
    exact lt_of_lt_of_le (Nat.log2_lt hne |>.1 (Nat.lt_succ_self _))
      (Nat.pow_le_pow_right (by decide) hj)
  rw [hbit, decide_eq_true hjn, Bool.true_and] at hhigh
  exact hhigh

theorem ctz_zero : (0 : BitVec w).ctz.toNat = w := by
  have hzero : (0 : BitVec w).reverse = 0 := BitVec.reverse_eq_zero_iff.2 rfl
  rw [BitVec.ctz_eq_reverse_clz, hzero]
  exact clz_zero

/-- A one above a word stops the count of its trailing zeros. -/
theorem ctz_stop {n m : ℕ} (h : n < m) (v : BitVec n) :
    (v.setWidth m ||| BitVec.twoPow m n).ctz.toNat = v.ctz.toNat := by
  by_cases hv : v = 0
  · subst hv
    rw [ctz_zero]
    apply ctz_unique
    · rw [BitVec.getLsbD_or, BitVec.getLsbD_twoPow]
      simp [h]
    · intro j hj
      rw [BitVec.getLsbD_or, BitVec.getLsbD_twoPow]
      simp [show n ≠ j by omega]
  · have hbit := BitVec.getLsbD_true_ctz_of_ne_zero hv
    have hlt : v.ctz.toNat < n := by
      by_contra hge
      rw [BitVec.getLsbD_of_ge v _ (by omega)] at hbit
      cases hbit
    apply ctz_unique
    · rw [BitVec.getLsbD_or, BitVec.getLsbD_setWidth, hbit]
      simp [show v.ctz.toNat < m by omega]
    · intro j hj
      rw [BitVec.getLsbD_or, BitVec.getLsbD_setWidth, BitVec.getLsbD_false_of_lt_ctz hj,
        BitVec.getLsbD_twoPow]
      simp [show n ≠ j by omega]

/-- A one below a word stops the count of its leading zeros. -/
theorem clz_stop {n k m : ℕ} (h : n + (k + 1) = m) (v : BitVec n) :
    (v.setWidth m <<< (k + 1) ||| BitVec.twoPow m k).clz.toNat = v.clz.toNat := by
  have hlt := v.isLt
  have hpow : 2 ^ m = 2 ^ n * 2 ^ (k + 1) := by rw [← h, pow_add]
  have hk : (2 : ℕ) ^ k < 2 ^ (k + 1) := Nat.pow_lt_pow_right (by decide) (by omega)
  have hfit : v.toNat * 2 ^ (k + 1) < 2 ^ m := by
    rw [hpow]
    exact Nat.mul_lt_mul_of_pos_right hlt (by positivity)
  have hval : (v.setWidth m <<< (k + 1) ||| BitVec.twoPow m k).toNat = v.toNat * 2 ^ (k + 1) + 2 ^ k := by
    have hm : v.toNat < 2 ^ m := lt_of_lt_of_le hlt (Nat.pow_le_pow_right (by decide) (by omega))
    rw [BitVec.toNat_or, BitVec.toNat_shiftLeft, BitVec.toNat_setWidth, Nat.mod_eq_of_lt hm,
      BitVec.toNat_twoPow, Nat.shiftLeft_eq, Nat.mod_eq_of_lt hfit,
      Nat.mod_eq_of_lt (Nat.pow_lt_pow_right (by decide) (by omega)), ← Nat.shiftLeft_eq,
      Nat.shiftLeft_add_eq_or_of_lt hk]
  have hne : v.setWidth m <<< (k + 1) ||| BitVec.twoPow m k ≠ 0 := by
    intro h0
    rw [h0] at hval
    have hpos : 0 < 2 ^ k := by positivity
    have hz : (0 : BitVec m).toNat = 0 := BitVec.toNat_zero
    omega
  rw [clz_toNat hne, hval]
  by_cases hv : v = 0
  · subst hv
    rw [clz_zero, show (0 : BitVec n).toNat = 0 from BitVec.toNat_zero, Nat.zero_mul, Nat.zero_add,
      Nat.log2_two_pow]
    omega
  · have hv0 : v.toNat ≠ 0 := fun h0 => hv (BitVec.eq_of_toNat_eq h0)
    have hlow := Nat.log2_self_le hv0
    have hhigh := Nat.lt_log2_self (n := v.toNat)
    have hlog : Nat.log2 (v.toNat * 2 ^ (k + 1) + 2 ^ k) = Nat.log2 v.toNat + (k + 1) := by
      apply (Nat.log2_eq_iff (by positivity)).2
      constructor
      · rw [pow_add]
        exact le_trans (Nat.mul_le_mul_right _ hlow) (Nat.le_add_right _ _)
      · rw [show Nat.log2 v.toNat + (k + 1) + 1 = Nat.log2 v.toNat + 1 + (k + 1) by omega,
          pow_add 2 (Nat.log2 v.toNat + 1) (k + 1)]
        calc v.toNat * 2 ^ (k + 1) + 2 ^ k < v.toNat * 2 ^ (k + 1) + 2 ^ (k + 1) := by omega
          _ = (v.toNat + 1) * 2 ^ (k + 1) := by ring
          _ ≤ 2 ^ (Nat.log2 v.toNat + 1) * 2 ^ (k + 1) := Nat.mul_le_mul_right _ hhigh
    rw [hlog, clz_toNat hv]
    omega

theorem top_sub_clz {x : BitVec w} (hx : x ≠ 0) :
    (BitVec.ofNat w (w - 1) - x.clz).toNat = Nat.log2 x.toNat := by
  have hne : x.toNat ≠ 0 := fun h => hx (BitVec.eq_of_toNat_eq h)
  have hlog : Nat.log2 x.toNat < w := (Nat.log2_lt hne).2 x.isLt
  have hclz := clz_toNat hx
  have hlt : w < 2 ^ w := Nat.lt_two_pow_self
  have htop : (BitVec.ofNat w (w - 1)).toNat = w - 1 := by
    rw [BitVec.toNat_ofNat, Nat.mod_eq_of_lt (by omega)]
  rw [BitVec.toNat_sub_of_le (by rw [BitVec.le_def, htop]; omega), htop, hclz]
  omega

/-! ### the number of ones -/

/-- The ones among the low `n` bits. -/
def ones (x : ℕ) : ℕ → ℕ
  | 0 => 0
  | n + 1 => ones x n + (x.testBit n).toNat

theorem ones_add (x k n : ℕ) : ones x (k + n) = ones x k + ones (x / 2 ^ k) n := by
  induction n with
  | zero => rfl
  | succ n ih =>
      show ones x (k + n) + (x.testBit (k + n)).toNat = _
      rw [ih, ones, Nat.testBit_div_two_pow, Nat.add_comm n k, Nat.add_assoc]

theorem ones_mod (x k : ℕ) {n : ℕ} (h : n ≤ k) : ones (x % 2 ^ k) n = ones x n := by
  induction n with
  | zero => rfl
  | succ n ih =>
      have hbit : (x % 2 ^ k).testBit n = x.testBit n := by
        rw [Nat.testBit_mod_two_pow, decide_eq_true (by omega), Bool.true_and]
      rw [ones, ones, ih (by omega), hbit]

theorem ones_le (x n : ℕ) : ones x n ≤ n := by
  induction n with
  | zero => exact le_refl _
  | succ n ih =>
      have hbit := Bool.toNat_le (x.testBit n)
      rw [ones]
      omega

theorem cpop_toNat (x : BitVec w) : x.cpop.toNat = ones x.toNat w := by
  have hrec : ∀ n, x.cpopNatRec n 0 = ones x.toNat n := by
    intro n
    induction n with
    | zero => rfl
    | succ n ih =>
        rw [BitVec.cpopNatRec_succ, BitVec.cpopNatRec_eq, ih, Nat.zero_add]
        rfl
  have hle := ones_le x.toNat w
  have hlt : w < 2 ^ w := Nat.lt_two_pow_self
  rw [BitVec.cpop, BitVec.toNat_ofNat, hrec, Nat.mod_eq_of_lt (by omega)]

theorem ones_zero (n : ℕ) : ones 0 n = 0 := by
  induction n with
  | zero => rfl
  | succ n ih => rw [ones, ih, Nat.zero_testBit]; rfl

theorem cpop_setWidth {n : ℕ} (h : n ≤ w) (v : BitVec n) :
    (v.setWidth w).cpop.toNat = v.cpop.toNat := by
  have hlt : v.toNat < 2 ^ w := lt_of_lt_of_le v.isLt (Nat.pow_le_pow_right (by decide) h)
  rw [cpop_toNat, cpop_toNat, BitVec.toNat_setWidth, Nat.mod_eq_of_lt hlt,
    show w = n + (w - n) by omega, ones_add, Nat.div_eq_of_lt v.isLt, ones_zero, Nat.add_zero]

theorem testBit_of_ones {x n : ℕ} (h : ones x n = 0) {k : ℕ} (hk : k < n) : x.testBit k = false := by
  induction n with
  | zero => omega
  | succ n ih =>
      rw [ones, Nat.add_eq_zero_iff] at h
      rcases Nat.lt_succ_iff_lt_or_eq.1 hk with hlt | rfl
      · exact ih h.1 hlt
      · simpa using h.2

theorem cpop_eq_zero_iff (x : BitVec w) : x.cpop.toNat = 0 ↔ x = 0 := by
  rw [cpop_toNat]
  constructor
  · intro h
    apply BitVec.eq_of_getLsbD_eq
    intro k hk
    rw [BitVec.ofNat_eq_ofNat, BitVec.getLsbD_zero]
    exact testBit_of_ones h hk
  · rintro rfl
    exact ones_zero w

/-! ### byte by byte -/

/-- The byte `m` in each of `n` bytes. -/
def lanes (m : ℕ) : ℕ → ℕ
  | 0 => 0
  | n + 1 => m + 256 * lanes m n

/-- Counts of the pairs of bits. -/
def pairs (n x : ℕ) : ℕ := x - (x / 2 &&& lanes 0x55 n)

/-- Counts of the groups of four, from those of the pairs. -/
def nibbles (n x : ℕ) : ℕ := (x &&& lanes 0x33 n) + (x / 4 &&& lanes 0x33 n)

/-- Counts of the bytes, from those of the groups of four. -/
def octets (n x : ℕ) : ℕ := x + x / 16 &&& lanes 0x0f n

theorem mod_and {j m : ℕ} (h : m < 2 ^ j) (x : ℕ) : x % 2 ^ j &&& m = x &&& m := by
  have hlt : x &&& m < 2 ^ j := lt_of_le_of_lt Nat.and_le_right h
  rw [← Nat.mod_eq_of_lt hlt, Nat.and_mod_two_pow, Nat.mod_eq_of_lt h]

theorem and_bytes {a m : ℕ} (ha : a < 256) (hm : m < 256) (b k : ℕ) :
    a + 256 * b &&& m + 256 * k = (a &&& m) + 256 * (b &&& k) := by
  have hlow : (a + 256 * b &&& m + 256 * k) % 2 ^ 8 = a &&& m := by
    rw [Nat.and_mod_two_pow, show (a + 256 * b) % 2 ^ 8 = a by omega,
      show (m + 256 * k) % 2 ^ 8 = m by omega]
  have hhigh : (a + 256 * b &&& m + 256 * k) / 2 ^ 8 = b &&& k := by
    rw [Nat.and_div_two_pow, show (a + 256 * b) / 2 ^ 8 = b by omega,
      show (m + 256 * k) / 2 ^ 8 = k by omega]
  omega

/-- A shift by one, the bit from the next byte masked off. -/
theorem half_and {a m : ℕ} (ha : a < 256) (hm : m < 2 ^ 7) (b k : ℕ) :
    (a + 256 * b) / 2 &&& m + 256 * k = (a / 2 &&& m) + 256 * (b / 2 &&& k) := by
  rw [show (a + 256 * b) / 2 = a / 2 + 128 * (b % 2) + 256 * (b / 2) by omega,
    and_bytes (by omega) (by omega), ← mod_and hm (a / 2 + 128 * (b % 2)),
    show (a / 2 + 128 * (b % 2)) % 2 ^ 7 = a / 2 by omega]

/-- A shift by two, the bits from the next byte masked off. -/
theorem quarter_and {a m : ℕ} (ha : a < 256) (hm : m < 2 ^ 6) (b k : ℕ) :
    (a + 256 * b) / 4 &&& m + 256 * k = (a / 4 &&& m) + 256 * (b / 4 &&& k) := by
  rw [show (a + 256 * b) / 4 = a / 4 + 64 * (b % 4) + 256 * (b / 4) by omega,
    and_bytes (by omega) (by omega), ← mod_and hm (a / 4 + 64 * (b % 4)),
    show (a / 4 + 64 * (b % 4)) % 2 ^ 6 = a / 4 by omega]

theorem pairs_step {a : ℕ} (ha : a < 256) (n b : ℕ) :
    pairs (n + 1) (a + 256 * b) = pairs 1 a + 256 * pairs n b := by
  have hlow : a / 2 &&& 0x55 ≤ a / 2 := Nat.and_le_left
  have hhigh : b / 2 &&& lanes 0x55 n ≤ b / 2 := Nat.and_le_left
  show a + 256 * b - ((a + 256 * b) / 2 &&& 0x55 + 256 * lanes 0x55 n) =
    a - (a / 2 &&& 0x55) + 256 * (b - (b / 2 &&& lanes 0x55 n))
  rw [half_and ha (by decide)]
  omega

theorem nibbles_step {a : ℕ} (ha : a < 256) (n b : ℕ) :
    nibbles (n + 1) (a + 256 * b) = nibbles 1 a + 256 * nibbles n b := by
  show (a + 256 * b &&& 0x33 + 256 * lanes 0x33 n) +
      ((a + 256 * b) / 4 &&& 0x33 + 256 * lanes 0x33 n) =
    (a &&& 0x33) + (a / 4 &&& 0x33) + 256 * ((b &&& lanes 0x33 n) + (b / 4 &&& lanes 0x33 n))
  rw [and_bytes ha (by decide), quarter_and ha (by decide)]
  omega

/-- Groups of four hold at most 4, so that nothing is carried. -/
theorem octets_step {a b : ℕ} (ha : a / 16 ≤ 4) (ha' : a % 16 ≤ 4) (hb : b % 16 ≤ 4) (n : ℕ) :
    octets (n + 1) (a + 256 * b) = octets 1 a + 256 * octets n b := by
  show a + 256 * b + (a + 256 * b) / 16 &&& 0x0f + 256 * lanes 0x0f n =
    (a + a / 16 &&& 0x0f) + 256 * (b + b / 16 &&& lanes 0x0f n)
  rw [show a + 256 * b + (a + 256 * b) / 16 = a + a / 16 + 16 * (b % 16) + 256 * (b + b / 16) by omega,
    and_bytes (by omega) (by decide), ← mod_and (j := 4) (by decide) (a + a / 16 + 16 * (b % 16)),
    ← mod_and (j := 4) (by decide) (a + a / 16),
    show (a + a / 16 + 16 * (b % 16)) % 2 ^ 4 = (a + a / 16) % 2 ^ 4 by omega]

theorem byte_counts {a : ℕ} (ha : a < 256) : pairs 1 a < 256 ∧ nibbles 1 (pairs 1 a) / 16 ≤ 4 ∧
    nibbles 1 (pairs 1 a) % 16 ≤ 4 ∧ octets 1 (nibbles 1 (pairs 1 a)) = ones a 8 := by
  have hall : ∀ a : Fin 256, pairs 1 a < 256 ∧ nibbles 1 (pairs 1 a) / 16 ≤ 4 ∧
      nibbles 1 (pairs 1 a) % 16 ≤ 4 ∧ octets 1 (nibbles 1 (pairs 1 a)) = ones a 8 := by
    decide +kernel
  exact hall ⟨a, ha⟩

/-- The counts of the bytes. -/
def counts : ℕ → ℕ → List ℕ
  | 0, _ => []
  | n + 1, x => ones (x % 256) 8 :: counts n (x / 256)

/-- Bytes put together, the first one lowest. -/
def pack : List ℕ → ℕ
  | [] => 0
  | d :: ds => d + 256 * pack ds

theorem nibbles_low (n x : ℕ) (hx : x < 256 ^ n) : nibbles n (pairs n x) % 16 ≤ 4 := by
  cases n with
  | zero =>
      obtain rfl : x = 0 := by omega
      decide
  | succ n =>
      have hbyte := byte_counts (Nat.mod_lt x (by decide : 256 > 0))
      rw [show x = x % 256 + 256 * (x / 256) by omega, pairs_step (by omega), nibbles_step hbyte.1]
      omega

/-- The three steps leave the count of each byte in the byte. -/
theorem octets_eq (n x : ℕ) (hx : x < 256 ^ n) :
    octets n (nibbles n (pairs n x)) = pack (counts n x) := by
  induction n generalizing x with
  | zero =>
      obtain rfl : x = 0 := by omega
      rfl
  | succ n ih =>
      have hrest : x / 256 < 256 ^ n := by
        rw [Nat.pow_succ] at hx
        omega
      have hbyte := byte_counts (Nat.mod_lt x (by decide : 256 > 0))
      show _ = ones (x % 256) 8 + 256 * pack (counts n (x / 256))
      rw [← ih _ hrest, ← hbyte.2.2.2, ← octets_step hbyte.2.1 hbyte.2.2.1 (nibbles_low n _ hrest),
        ← nibbles_step hbyte.1, ← pairs_step (by omega), show x % 256 + 256 * (x / 256) = x by omega]

theorem sum_counts (n x : ℕ) : (counts n x).sum = ones x (8 * n) := by
  induction n generalizing x with
  | zero => rfl
  | succ n ih =>
      have hbyte : ones (x % 256) 8 = ones x 8 := ones_mod x 8 (le_refl 8)
      rw [counts, List.sum_cons, ih, hbyte, show 8 * (n + 1) = 8 + 8 * n by omega, ones_add]
      rfl

theorem length_counts (n x : ℕ) : (counts n x).length = n := by
  induction n generalizing x with
  | zero => rfl
  | succ n ih => rw [counts, List.length_cons, ih]

/-! ### the sum of the bytes -/

/-- The sums of the first bytes, packed: the product with `lanes 1 n` cut to `n` bytes. -/
def spread : List ℕ → ℕ
  | [] => 0
  | d :: ds => d * lanes 1 (ds.length + 1) + 256 * spread ds

theorem lanes_top (n : ℕ) : lanes 1 (n + 1) = lanes 1 n + 256 ^ n := by
  induction n with
  | zero => rfl
  | succ n ih =>
      rw [lanes, ih, Nat.pow_succ]
      rw [lanes] at ih
      omega

theorem lanes_one (n : ℕ) : 255 * lanes 1 n + 1 = 256 ^ n := by
  induction n with
  | zero => rfl
  | succ n ih =>
      rw [lanes, Nat.pow_succ]
      omega

/-- The product differs from `spread` above the last byte only. -/
theorem pack_mul (ds : List ℕ) :
    ∃ q, pack ds * lanes 1 ds.length = spread ds + 256 ^ ds.length * q := by
  induction ds with
  | nil => exact ⟨0, rfl⟩
  | cons d ds ih =>
      obtain ⟨q, hq⟩ := ih
      refine ⟨q + pack ds, ?_⟩
      show (d + 256 * pack ds) * lanes 1 (ds.length + 1) =
        d * lanes 1 (ds.length + 1) + 256 * spread ds + 256 ^ (ds.length + 1) * (q + pack ds)
      have hsplit : pack ds * lanes 1 (ds.length + 1) =
          spread ds + 256 ^ ds.length * q + pack ds * 256 ^ ds.length := by
        rw [lanes_top, Nat.mul_add, hq]
      calc (d + 256 * pack ds) * lanes 1 (ds.length + 1)
          = d * lanes 1 (ds.length + 1) + 256 * (pack ds * lanes 1 (ds.length + 1)) := by ring
        _ = d * lanes 1 (ds.length + 1) +
              256 * (spread ds + 256 ^ ds.length * q + pack ds * 256 ^ ds.length) := by rw [hsplit]
        _ = _ := by ring

theorem spread_bounds (d : ℕ) (ds : List ℕ) :
    (d + ds.sum) * 256 ^ ds.length ≤ spread (d :: ds) ∧
      spread (d :: ds) ≤ (d + ds.sum) * lanes 1 (ds.length + 1) := by
  induction ds generalizing d with
  | nil =>
      show (d + 0) * 256 ^ 0 ≤ d * lanes 1 1 + 256 * 0 ∧ d * lanes 1 1 + 256 * 0 ≤ (d + 0) * lanes 1 1
      rw [show lanes 1 1 = 1 from rfl]
      omega
  | cons e ds ih =>
      obtain ⟨hlow, hhigh⟩ := ih e
      have htop := lanes_top (ds.length + 1)
      have hshift : 256 * lanes 1 (ds.length + 1) ≤ lanes 1 (ds.length + 1 + 1) :=
        Nat.le_add_left _ _
      constructor
      · calc (d + (e :: ds).sum) * 256 ^ (ds.length + 1)
            = d * 256 ^ (ds.length + 1) + 256 * ((e + ds.sum) * 256 ^ ds.length) := by
              rw [List.sum_cons]
              ring
          _ ≤ d * lanes 1 (ds.length + 1 + 1) + 256 * spread (e :: ds) :=
              Nat.add_le_add (Nat.mul_le_mul_left d (by omega)) (Nat.mul_le_mul_left 256 hlow)
      · calc d * lanes 1 (ds.length + 1 + 1) + 256 * spread (e :: ds)
            ≤ d * lanes 1 (ds.length + 1 + 1) + 256 * ((e + ds.sum) * lanes 1 (ds.length + 1)) :=
              Nat.add_le_add_left (Nat.mul_le_mul_left 256 hhigh) _
          _ = d * lanes 1 (ds.length + 1 + 1) + (e + ds.sum) * (256 * lanes 1 (ds.length + 1)) := by
              ring
          _ ≤ d * lanes 1 (ds.length + 1 + 1) + (e + ds.sum) * lanes 1 (ds.length + 1 + 1) :=
              Nat.add_le_add_left (Nat.mul_le_mul_left _ hshift) _
          _ = (d + (e :: ds).sum) * lanes 1 (ds.length + 1 + 1) := by
              rw [List.sum_cons]
              ring

/-- **The bytes added up**: the top byte of the product with a one in every byte. -/
theorem top_product {n : ℕ} {ds : List ℕ} (hlen : ds.length = n + 1) (hsum : ds.sum < 256) :
    pack ds * lanes 1 (n + 1) % 256 ^ (n + 1) / 256 ^ n = ds.sum := by
  obtain ⟨q, hq⟩ := pack_mul ds
  rw [hlen] at hq
  cases ds with
  | nil => cases hlen
  | cons d ds =>
      obtain rfl : ds.length = n := Nat.succ.inj hlen
      obtain ⟨hlow, hhigh⟩ := spread_bounds d ds
      have hone := lanes_one ds.length
      rw [List.sum_cons] at hsum ⊢
      have hrest : (d + ds.sum) * lanes 1 ds.length < 256 ^ ds.length := by
        calc (d + ds.sum) * lanes 1 ds.length ≤ 255 * lanes 1 ds.length :=
              Nat.mul_le_mul_right _ (by omega)
          _ < 256 ^ ds.length := by omega
      rw [lanes_top, Nat.mul_add] at hhigh
      have hnext : (d + ds.sum + 1) * 256 ^ ds.length ≤ 256 ^ (ds.length + 1) := by
        rw [Nat.pow_succ, Nat.mul_comm]
        exact Nat.mul_le_mul_left _ (by omega)
      rw [Nat.add_mul, Nat.one_mul] at hnext
      rw [hq, Nat.add_mul_mod_self_left, Nat.mod_eq_of_lt (by omega)]
      apply Nat.div_eq_of_lt_le
      · omega
      · rw [Nat.add_mul, Nat.one_mul]
        omega

/-- **The ones of a word** of `n + 1` bytes. -/
theorem popcount_word {n x : ℕ} (hn : n < 31) (hx : x < 256 ^ (n + 1)) :
    octets (n + 1) (nibbles (n + 1) (pairs (n + 1) x)) * lanes 1 (n + 1) % 256 ^ (n + 1) / 256 ^ n =
      ones x (8 * (n + 1)) := by
  have hle := ones_le x (8 * (n + 1))
  rw [octets_eq _ _ hx, top_product (length_counts _ _) (by rw [sum_counts]; omega), sum_counts]

/-- The steps on a word, with the masks and the factor given. -/
def swar (x m₁ m₂ m₄ h : BitVec w) (k : ℕ) : BitVec w :=
  let a := x - (x >>> 1 &&& m₁)
  let b := (a >>> 2 &&& m₂) + (a &&& m₂)
  ((b + b >>> 4 &&& m₄) * h) >>> k

theorem lanes_mul (m n : ℕ) : lanes m n = m * lanes 1 n := by
  induction n with
  | zero => rfl
  | succ n ih =>
      rw [lanes, lanes, ih]
      ring

theorem lanes_lt {m : ℕ} (hm : m < 256) (n : ℕ) : lanes m n < 256 ^ n := by
  have hone := lanes_one n
  rw [lanes_mul]
  calc m * lanes 1 n ≤ 255 * lanes 1 n := Nat.mul_le_mul_right _ (by omega)
    _ < 256 ^ n := by omega

/-- **The ones of a word**, by the steps. -/
theorem swar_toNat {n : ℕ} (hn : n < 31) (hw : w = 8 * (n + 1)) (x : BitVec w) :
    (swar x (.ofNat w (lanes 0x55 (n + 1))) (.ofNat w (lanes 0x33 (n + 1)))
      (.ofNat w (lanes 0x0f (n + 1))) (.ofNat w (lanes 1 (n + 1))) (8 * n)).toNat =
    x.cpop.toNat := by
  have hpow : 2 ^ w = 256 ^ (n + 1) := by rw [hw, pow_mul]; rfl
  have htop : 2 ^ (8 * n) = 256 ^ n := by rw [pow_mul]; rfl
  have hmask : ∀ m, m < 256 → (BitVec.ofNat w (lanes m (n + 1))).toNat = lanes m (n + 1) := by
    intro m hm
    rw [BitVec.toNat_ofNat, Nat.mod_eq_of_lt (by rw [hpow]; exact lanes_lt hm _)]
  -- the pairs: nothing is borrowed
  obtain ⟨a, ha⟩ : ∃ a, x - (x >>> 1 &&& .ofNat w (lanes 0x55 (n + 1))) = a := ⟨_, rfl⟩
  have hpairs : a.toNat = pairs (n + 1) x.toNat := by
    have hhalf : (x >>> 1 &&& .ofNat w (lanes 0x55 (n + 1))).toNat =
        x.toNat / 2 &&& lanes 0x55 (n + 1) := by
      rw [BitVec.toNat_and, BitVec.toNat_ushiftRight, Nat.shiftRight_eq_div_pow, hmask _ (by decide)]
    have hle : x.toNat / 2 &&& lanes 0x55 (n + 1) ≤ x.toNat / 2 := Nat.and_le_left
    rw [← ha, BitVec.toNat_sub_of_le (by rw [BitVec.le_def, hhalf]; omega), hhalf]
    rfl
  -- the groups of four: the sum fits
  obtain ⟨b, hb⟩ : ∃ b, (a >>> 2 &&& .ofNat w (lanes 0x33 (n + 1))) +
      (a &&& .ofNat w (lanes 0x33 (n + 1))) = b := ⟨_, rfl⟩
  have hnibbles : b.toNat = nibbles (n + 1) a.toNat := by
    have hone := lanes_one (n + 1)
    have hmul := lanes_mul 0x33 (n + 1)
    have hlow : a.toNat &&& lanes 0x33 (n + 1) ≤ lanes 0x33 (n + 1) := Nat.and_le_right
    have hhigh : a.toNat / 4 &&& lanes 0x33 (n + 1) ≤ lanes 0x33 (n + 1) := Nat.and_le_right
    rw [← hb, BitVec.toNat_add, BitVec.toNat_and, BitVec.toNat_and, BitVec.toNat_ushiftRight,
      Nat.shiftRight_eq_div_pow, hmask _ (by decide), show (2 : ℕ) ^ 2 = 4 from rfl,
      Nat.mod_eq_of_lt (by rw [hpow]; omega), Nat.add_comm]
    rfl
  -- the bytes: the mask drops what is carried out of the word
  have hoctets : (b + b >>> 4 &&& BitVec.ofNat w (lanes 0x0f (n + 1))).toNat =
      octets (n + 1) b.toNat := by
    rw [BitVec.toNat_and, BitVec.toNat_add, BitVec.toNat_ushiftRight, Nat.shiftRight_eq_div_pow,
      hmask _ (by decide), mod_and (by rw [hpow]; exact lanes_lt (by decide) _)]
    rfl
  have hswar : swar x (.ofNat w (lanes 0x55 (n + 1))) (.ofNat w (lanes 0x33 (n + 1)))
      (.ofNat w (lanes 0x0f (n + 1))) (.ofNat w (lanes 1 (n + 1))) (8 * n) =
      ((b + b >>> 4 &&& BitVec.ofNat w (lanes 0x0f (n + 1))) *
        BitVec.ofNat w (lanes 1 (n + 1))) >>> (8 * n) := by
    rw [← hb, ← ha]
    rfl
  have hx : x.toNat < 256 ^ (n + 1) := by
    rw [← hpow]
    exact x.isLt
  rw [hswar, BitVec.toNat_ushiftRight, BitVec.toNat_mul, hoctets, hnibbles, hpairs,
    hmask _ (by decide), Nat.shiftRight_eq_div_pow, hpow, htop, popcount_word hn hx, cpop_toNat, ← hw]

end PS4Recomp.Library.BitCount
