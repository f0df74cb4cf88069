import PS4Recomp.Library.AddCarry

/-!
# Words as integers

Words of `n` bits as the integers they stand for, and the truncated division of a dividend of twice
the width.

* `toInt_ofInt_of_fits`, `setWidth_ofInt` — the word of an integer that fits, and cut to fewer bits;
* `sdiv_eq_ofInt`, `sub_sdiv_mul`, `udiv_eq_ofNat`, `sub_udiv_mul` — quotient and remainder of words;
* `divide` — quotient and remainder of a dividend of `2 * n` bits, when the quotient fits;
* `divideLow` — the division that looks at the low half of the dividend only, and `divide_low_iff`: it
  agrees exactly when the high half extends the low one, and in the one case where the quotient
  overflows into its own negative;
* `product` — the product of two words in any number of bits; `product_setWidth`: cut to fewer;
* `significant` — the high half of a product says more than the low one; `significant_signed_iff`,
  `significant_high`: by the product in a wider word, and by the two halves.
-/

namespace PS4Recomp.Library.Words

open AddCarry

variable {n m : ℕ}

/-! ### integers and words -/

theorem toInt_ofInt_of_fits {z : ℤ} (h : Fits n z) : (BitVec.ofInt n z).toInt = z := by
  obtain ⟨hlo, hhi⟩ := h
  rw [BitVec.toInt_ofInt]
  apply Int.bmod_eq_of_le_mul_two
  · push_cast
    omega
  · push_cast
    omega

theorem ofInt_inj {x y : ℤ} (hx : Fits n x) (hy : Fits n y) :
    BitVec.ofInt n x = BitVec.ofInt n y ↔ x = y := by
  constructor
  · intro h
    rw [← toInt_ofInt_of_fits hx, h, toInt_ofInt_of_fits hy]
  · intro h
    rw [h]

/-- A word cut to fewer bits is the word of the same integer. -/
theorem setWidth_ofInt (h : n ≤ m) (z : ℤ) : (BitVec.ofInt m z).setWidth n = BitVec.ofInt n z := by
  have hdvd : 2 ^ n ∣ 2 ^ m := Nat.pow_dvd_pow 2 h
  have hpos : (0 : ℤ) ≤ z % (2 ^ m : ℕ) :=
    Int.emod_nonneg _ (by exact_mod_cast (Nat.two_pow_pos m).ne')
  have hmod : ∀ k : ℕ, (z % (2 ^ m : ℕ) : ℤ).bmod k = ((z % (2 ^ m : ℕ)) % k).bmod k := fun k =>
    (Int.emod_bmod _ _).symm
  apply BitVec.eq_of_toInt_eq
  rw [BitVec.toInt_setWidth, BitVec.toInt_ofInt, BitVec.toNat_ofInt, Int.toNat_of_nonneg hpos, hmod,
    Int.emod_emod_of_dvd _ (by exact_mod_cast hdvd), Int.emod_bmod]

theorem setWidth_eq_ofInt (h : n ≤ m) (a : BitVec m) : a.setWidth n = BitVec.ofInt n a.toInt := by
  rw [← setWidth_ofInt h, BitVec.ofInt_toInt]

/-! ### division of words -/

theorem sdiv_eq_ofInt (a b : BitVec n) : a.sdiv b = BitVec.ofInt n (a.toInt.tdiv b.toInt) := by
  apply BitVec.eq_of_toInt_eq
  rw [BitVec.toInt_sdiv, BitVec.toInt_ofInt]

theorem sub_sdiv_mul (a b : BitVec n) :
    a - a.sdiv b * b = BitVec.ofInt n (a.toInt.tmod b.toInt) := by
  have hsplit : a.sdiv b * b + BitVec.ofInt n (a.toInt.tmod b.toInt) = a := by
    rw [sdiv_eq_ofInt]
    nth_rewrite 2 [← BitVec.ofInt_toInt (x := b)]
    rw [← BitVec.ofInt_mul, ← BitVec.ofInt_add, Int.tdiv_mul_add_tmod, BitVec.ofInt_toInt]
  nth_rewrite 1 [← hsplit]
  exact add_sub_cancel_left _ _

theorem ofNat_toNat (a : BitVec n) : BitVec.ofNat n a.toNat = a := by
  rw [BitVec.ofNat_toNat, BitVec.setWidth_eq]

theorem udiv_eq_ofNat (a b : BitVec n) : a / b = BitVec.ofNat n (a.toNat / b.toNat) := by
  apply BitVec.eq_of_toNat_eq
  have hlt := a.isLt
  have hle := Nat.div_le_self a.toNat b.toNat
  rw [BitVec.toNat_udiv, BitVec.toNat_ofNat, Nat.mod_eq_of_lt (by omega)]

theorem sub_udiv_mul (a b : BitVec n) : a - a / b * b = BitVec.ofNat n (a.toNat % b.toNat) := by
  have hsplit : a / b * b + BitVec.ofNat n (a.toNat % b.toNat) = a := by
    rw [udiv_eq_ofNat]
    nth_rewrite 2 [← ofNat_toNat b]
    rw [← BitVec.ofNat_mul, ← BitVec.ofNat_add, Nat.div_add_mod', ofNat_toNat]
  nth_rewrite 1 [← hsplit]
  exact add_sub_cancel_left _ _

/-! ### a dividend of twice the width -/

/-- Quotient, truncated toward zero, and remainder; there are none for a zero divisor and for a
quotient that does not fit. -/
def divide (signed : Bool) (d : BitVec (n + n)) (v : BitVec n) : Option (BitVec n × BitVec n) :=
  if signed then
    if v ≠ 0 ∧ Fits n (d.toInt.tdiv v.toInt) then
      some (.ofInt n (d.toInt.tdiv v.toInt), .ofInt n (d.toInt.tmod v.toInt))
    else none
  else if v ≠ 0 ∧ d.toNat / v.toNat < 2 ^ n then
    some (.ofNat n (d.toNat / v.toNat), .ofNat n (d.toNat % v.toNat))
  else none

/-- Quotient and remainder of a word, the remainder by a multiply-subtract. -/
def divideLow (signed : Bool) (a v : BitVec n) : BitVec n × BitVec n :=
  if signed then (a.sdiv v, a - a.sdiv v * v) else (a / v, a - a / v * v)

/-- The dividend is its low half, extended; or the quotient is the one power of two that overflows into
its own negative. -/
def Narrow (signed : Bool) (d : BitVec (n + n)) (v : BitVec n) : Prop :=
  if signed then d.toInt = (d.setWidth n).toInt ∨ 2 * d.toInt = 2 ^ n ∧ v.toInt = -1
  else d.toNat = (d.setWidth n).toNat

instance (signed : Bool) (d : BitVec (n + n)) (v : BitVec n) : Decidable (Narrow signed d v) := by
  unfold Narrow
  split <;> infer_instance

theorem toInt_ne_zero {v : BitVec n} (hv : v ≠ 0) : v.toInt ≠ 0 := fun h =>
  hv (BitVec.eq_of_toInt_eq (h.trans BitVec.toInt_zero.symm))

theorem fits_tmod {v : BitVec n} (hv : v ≠ 0) (z : ℤ) : Fits n (z.tmod v.toInt) := by
  have hne := toInt_ne_zero hv
  have habs := Int.natAbs_tmod z v.toInt
  have hlt := Nat.mod_lt z.natAbs (Int.natAbs_pos.2 hne)
  obtain ⟨hlo, hhi⟩ := fits_toInt v
  constructor <;> omega

/-- A quotient of a word fits, or it is the power of two. -/
theorem fits_tdiv (a v : BitVec n) :
    Fits n (a.toInt.tdiv v.toInt) ∨ 2 * a.toInt = -2 ^ n ∧ v.toInt = -1 := by
  have habs := Int.natAbs_tdiv_le_natAbs a.toInt v.toInt
  obtain ⟨hlo, hhi⟩ := fits_toInt a
  by_cases hfits : Fits n (a.toInt.tdiv v.toInt)
  · exact .inl hfits
  -- the quotient is as large as the dividend, which is the least word
  obtain ⟨hleast, hquot⟩ : 2 * a.toInt = -2 ^ n ∧ a.toInt.tdiv v.toInt = -a.toInt := by
    unfold Fits at hfits
    constructor <;> omega
  have hpos : (0 : ℤ) < 2 ^ n := by positivity
  have hdiv : a.toInt.natAbs / v.toInt.natAbs = a.toInt.natAbs := by
    have hnat := Int.natAbs_tdiv a.toInt v.toInt
    rw [hquot, Int.natAbs_neg] at hnat
    exact hnat.symm
  have hone : v.toInt.natAbs = 1 := by
    rcases Nat.div_eq_self.1 hdiv with h0 | h1
    · omega
    · exact h1
  refine .inr ⟨hleast, ?_⟩
  rcases Int.natAbs_eq v.toInt with hv | hv
  · rw [hv, hone, Nat.cast_one, Int.tdiv_one] at hquot
    omega
  · rw [hv, hone, Nat.cast_one]

theorem dividend_eq {x y v : ℤ} (hq : x.tdiv v = y.tdiv v) (hr : x.tmod v = y.tmod v) : x = y := by
  rw [← Int.tdiv_mul_add_tmod x v, hq, hr, Int.tdiv_mul_add_tmod]

theorem ofInt_two_pow : BitVec.ofInt n (2 ^ n) = 0 := by
  apply BitVec.eq_of_toNat_eq
  rw [BitVec.toNat_ofInt]
  push_cast
  rw [Int.emod_self]
  rfl

theorem divide_low_signed {d : BitVec (n + n)} {v : BitVec n} (hv : v ≠ 0)
    (hq : Fits n (d.toInt.tdiv v.toInt)) :
    divideLow true (d.setWidth n) v =
      (BitVec.ofInt n (d.toInt.tdiv v.toInt), BitVec.ofInt n (d.toInt.tmod v.toInt)) ↔
    Narrow true d v := by
  show (_, _) = (_, _) ↔ d.toInt = (d.setWidth n).toInt ∨ 2 * d.toInt = 2 ^ n ∧ v.toInt = -1
  have hlow := setWidth_eq_ofInt (Nat.le_add_left n n) d
  rw [Prod.mk.injEq, sub_sdiv_mul, sdiv_eq_ofInt]
  constructor
  · rintro ⟨hquot, hrem⟩
    rcases fits_tdiv (d.setWidth n) v with hfits | ⟨hleast, hneg⟩
    · have hq' := (ofInt_inj hfits hq).1 hquot
      have hr' := (ofInt_inj (fits_tmod hv _) (fits_tmod hv _)).1 hrem
      exact .inl (dividend_eq hq' hr').symm
    · -- the quotient `2 ^ (n - 1)` is the word of `-2 ^ (n - 1)`
      rw [hneg, Int.tdiv_neg, Int.tdiv_neg, Int.tdiv_one, Int.tdiv_one] at hquot
      rw [hneg, Int.tdiv_neg, Int.tdiv_one] at hq
      have hwrap : BitVec.ofInt n (-(d.setWidth n).toInt) = BitVec.ofInt n (d.setWidth n).toInt := by
        have hsum : -(d.setWidth n).toInt = (d.setWidth n).toInt + 2 ^ n := by omega
        rw [hsum, BitVec.ofInt_add, ofInt_two_pow]
        exact BitVec.add_zero _
      have heq := (ofInt_inj (fits_toInt _) hq).1 (hwrap.symm.trans hquot)
      exact .inr ⟨by omega, hneg⟩
  · rintro (heq | ⟨-, hneg⟩)
    · rw [← heq]
      exact ⟨rfl, rfl⟩
    · rw [hneg, Int.tdiv_neg, Int.tdiv_neg, Int.tdiv_one, Int.tdiv_one, Int.tmod_neg, Int.tmod_neg,
        Int.tmod_one, Int.tmod_one, BitVec.ofInt_neg, BitVec.ofInt_neg, BitVec.ofInt_toInt, hlow]
      exact ⟨rfl, rfl⟩

theorem ofNat_inj {x y : ℕ} (hx : x < 2 ^ n) (hy : y < 2 ^ n) :
    BitVec.ofNat n x = BitVec.ofNat n y ↔ x = y := by
  rw [← BitVec.toNat_inj, BitVec.toNat_ofNat, BitVec.toNat_ofNat, Nat.mod_eq_of_lt hx,
    Nat.mod_eq_of_lt hy]

theorem divide_low_unsigned {d : BitVec (n + n)} {v : BitVec n} (hv : v ≠ 0)
    (hq : d.toNat / v.toNat < 2 ^ n) :
    divideLow false (d.setWidth n) v =
      (BitVec.ofNat n (d.toNat / v.toNat), BitVec.ofNat n (d.toNat % v.toNat)) ↔
    Narrow false d v := by
  show (_, _) = (_, _) ↔ d.toNat = (d.setWidth n).toNat
  have hpos : 0 < v.toNat := Nat.pos_of_ne_zero fun h => hv (BitVec.eq_of_toNat_eq h)
  have hlt := (d.setWidth n).isLt
  have hvlt := v.isLt
  have hle := Nat.div_le_self (d.setWidth n).toNat v.toNat
  have hmod := Nat.mod_lt d.toNat hpos
  have hmod' := Nat.mod_lt (d.setWidth n).toNat hpos
  rw [Prod.mk.injEq, sub_udiv_mul, udiv_eq_ofNat, ofNat_inj (by omega) hq,
    ofNat_inj (by omega) (by omega)]
  constructor
  · rintro ⟨hquot, hrem⟩
    rw [← Nat.div_add_mod d.toNat v.toNat, ← hquot, ← hrem, Nat.div_add_mod]
  · intro heq
    rw [← heq]
    exact ⟨rfl, rfl⟩

/-- **The division of the low half.** -/
theorem divide_low_iff {signed : Bool} {d : BitVec (n + n)} {v q r : BitVec n}
    (h : divide signed d v = some (q, r)) :
    divideLow signed (d.setWidth n) v = (q, r) ↔ Narrow signed d v := by
  unfold divide at h
  cases signed with
  | true =>
      rw [if_pos rfl] at h
      split at h
      · rename_i hdiv
        rw [← Option.some.inj h]
        exact divide_low_signed hdiv.1 hdiv.2
      · cases h
  | false =>
      rw [if_neg Bool.false_ne_true] at h
      split at h
      · rename_i hdiv
        rw [← Option.some.inj h]
        exact divide_low_unsigned hdiv.1 hdiv.2
      · cases h

/-- A division in wider words, cut to the width of the divisor. -/
theorem divideLow_wide (hle : n ≤ m) {signed : Bool} {d : BitVec (n + n)} {v q r : BitVec n}
    {a b : BitVec m} (hs : signed = true → a.toInt = d.toInt ∧ b.toInt = v.toInt)
    (hu : signed = false → a.toNat = d.toNat ∧ b.toNat = v.toNat)
    (h : divide signed d v = some (q, r)) :
    (divideLow signed a b).1.setWidth n = q ∧ (divideLow signed a b).2.setWidth n = r := by
  unfold divide at h
  cases signed with
  | true =>
      obtain ⟨ha, hb⟩ := hs rfl
      rw [if_pos rfl] at h
      split at h
      · obtain ⟨rfl, rfl⟩ := Prod.mk.inj (Option.some.inj h)
        show (a.sdiv b).setWidth n = _ ∧ (a - a.sdiv b * b).setWidth n = _
        rw [sub_sdiv_mul, sdiv_eq_ofInt, setWidth_ofInt hle, setWidth_ofInt hle, ha, hb]
        exact ⟨rfl, rfl⟩
      · cases h
  | false =>
      obtain ⟨ha, hb⟩ := hu rfl
      rw [if_neg Bool.false_ne_true] at h
      split at h
      · obtain ⟨rfl, rfl⟩ := Prod.mk.inj (Option.some.inj h)
        show (a / b).setWidth n = _ ∧ (a - a / b * b).setWidth n = _
        rw [sub_udiv_mul, udiv_eq_ofNat, BitVec.setWidth_ofNat_of_le hle,
          BitVec.setWidth_ofNat_of_le hle, ha, hb]
        exact ⟨rfl, rfl⟩
      · cases h

/-! ### products -/

/-- The product of two words in `m` bits. -/
def product (m : ℕ) (signed : Bool) (a b : BitVec n) : BitVec m :=
  if signed then a.signExtend m * b.signExtend m else a.setWidth m * b.setWidth m

/-- The product of twice the width is not the extension of its low half. -/
def significant (signed : Bool) (p : BitVec (n + n)) : Bool :=
  if signed then p != (p.setWidth n).signExtend (n + n) else p.extractLsb' n n != 0

theorem signExtend_setWidth (a : BitVec n) {k : ℕ} (h : k ≤ m) :
    (a.signExtend m).setWidth k = a.signExtend k := by
  apply BitVec.eq_of_getLsbD_eq
  intro i hi
  rw [BitVec.getLsbD_setWidth, BitVec.getLsbD_signExtend, BitVec.getLsbD_signExtend,
    decide_eq_true hi, decide_eq_true (show i < m by omega), Bool.true_and, Bool.true_and]

theorem product_comm (signed : Bool) (a b : BitVec n) : product m signed a b = product m signed b a := by
  cases signed with
  | true => exact BitVec.mul_comm _ _
  | false => exact BitVec.mul_comm _ _

theorem product_setWidth {k : ℕ} (h : k ≤ m) (signed : Bool) (a b : BitVec n) :
    (product m signed a b).setWidth k = product k signed a b := by
  cases signed with
  | true =>
      show (a.signExtend m * b.signExtend m).setWidth k = a.signExtend k * b.signExtend k
      rw [BitVec.setWidth_mul _ _ h, signExtend_setWidth a h, signExtend_setWidth b h]
  | false =>
      show (a.setWidth m * b.setWidth m).setWidth k = a.setWidth k * b.setWidth k
      rw [BitVec.setWidth_mul _ _ h, BitVec.setWidth_setWidth_of_le _ h,
        BitVec.setWidth_setWidth_of_le _ h]

theorem product_self (signed : Bool) (a b : BitVec n) : product n signed a b = a * b := by
  cases signed with
  | true =>
      show a.signExtend n * b.signExtend n = a * b
      rw [BitVec.signExtend_eq, BitVec.signExtend_eq]
  | false =>
      show a.setWidth n * b.setWidth n = a * b
      rw [BitVec.setWidth_eq, BitVec.setWidth_eq]

theorem product_low (h : n ≤ m) (signed : Bool) (a b : BitVec n) :
    (product m signed a b).setWidth n = a * b := by
  rw [product_setWidth h, product_self]

theorem product_halves (h : n + n ≤ m) (signed : Bool) (a b : BitVec n) :
    (product (n + n) signed a b).setWidth n = (product m signed a b).setWidth n ∧
      (product (n + n) signed a b).extractLsb' n n = (product m signed a b).extractLsb' n n := by
  constructor
  · rw [product_setWidth (by omega), product_setWidth (by omega)]
  · rw [← product_setWidth h signed a b, BitVec.extractLsb'_setWidth_of_le (by omega)]

theorem toInt_product (hn : 0 < n) (h : n + n ≤ m) (a b : BitVec n) :
    (product m true a b).toInt = a.toInt * b.toInt := by
  obtain ⟨k, rfl⟩ : ∃ k, n = k + 1 := ⟨n - 1, by omega⟩
  obtain ⟨ha, ha'⟩ := fits_toInt a
  obtain ⟨hb, hb'⟩ := fits_toInt b
  rw [pow_succ] at ha ha' hb hb'
  have habs : |a.toInt * b.toInt| ≤ 2 ^ k * 2 ^ k := by
    rw [abs_mul]
    exact mul_le_mul (abs_le.2 ⟨by omega, by omega⟩) (abs_le.2 ⟨by omega, by omega⟩) (abs_nonneg _)
      (by positivity)
  have hpow : (2 : ℤ) ^ k * 2 ^ k * 4 ≤ 2 ^ m := by
    rw [← pow_add, show (4 : ℤ) = 2 ^ 2 by norm_num, ← pow_add]
    exact pow_le_pow_right₀ (by norm_num) (by omega)
  have hpos : (0 : ℤ) < 2 ^ k * 2 ^ k := by positivity
  obtain ⟨hlo, hhi⟩ := abs_le.1 habs
  show (a.signExtend m * b.signExtend m).toInt = _
  rw [BitVec.toInt_mul, BitVec.toInt_signExtend_of_le (by omega),
    BitVec.toInt_signExtend_of_le (by omega)]
  apply Int.bmod_eq_of_le_mul_two
  · push_cast
    omega
  · push_cast
    omega

/-- The significance of the high half of a signed product, in any wider word. -/
theorem significant_signed_iff (hn : 0 < n) (h : n + n ≤ m) (a b : BitVec n) :
    significant true (product (n + n) true a b) =
      (product m true a b != ((product m true a b).setWidth n).signExtend m) := by
  have hcrit : ∀ m, n + n ≤ m → (product m true a b = ((product m true a b).setWidth n).signExtend m ↔
      a.toInt * b.toInt = (a * b).toInt) := by
    intro m hm
    rw [product_setWidth (by omega), product_self, ← BitVec.toInt_inj, toInt_product hn hm,
      BitVec.toInt_signExtend_of_le (by omega)]
  show (product (n + n) true a b != _) = _
  rw [Bool.eq_iff_iff, bne_iff_ne, bne_iff_ne, ne_eq, ne_eq, hcrit _ (le_refl _), hcrit _ h]

theorem getLsbD_signs (hn : 0 < n) (x : BitVec n) {k : ℕ} (hk : k < n) :
    (x.sshiftRight (n - 1)).getLsbD k = x.msb := by
  rw [BitVec.getLsbD_sshiftRight, decide_eq_false (by omega), Bool.not_false, Bool.true_and]
  split
  · rw [show n - 1 + k = n - 1 by omega, BitVec.msb_eq_getLsbD_last]
  · rfl

/-- The significance by the two halves: the high one is not the sign of the low one. -/
theorem significant_high (hn : 0 < n) (p : BitVec (n + n)) :
    significant true p = (p.extractLsb' n n != (p.setWidth n).sshiftRight (n - 1)) := by
  show (p != (p.setWidth n).signExtend (n + n)) = _
  rw [Bool.eq_iff_iff, bne_iff_ne, bne_iff_ne, ne_eq, ne_eq, not_iff_not]
  constructor
  · intro heq
    apply BitVec.eq_of_getLsbD_eq
    intro k hk
    have hbit := congrArg (BitVec.getLsbD · (n + k)) heq
    rw [BitVec.getLsbD_signExtend, decide_eq_true (by omega), Bool.true_and, if_neg (by omega)] at hbit
    rw [getLsbD_signs hn _ hk, BitVec.getLsbD_extractLsb', decide_eq_true hk, Bool.true_and, hbit]
  · intro heq
    apply BitVec.eq_of_getLsbD_eq
    intro k hk
    rw [BitVec.getLsbD_signExtend, decide_eq_true hk, Bool.true_and]
    split
    · rename_i hlow
      rw [BitVec.getLsbD_setWidth, decide_eq_true hlow, Bool.true_and]
    · rename_i hhigh
      have hbit := congrArg (BitVec.getLsbD · (k - n)) heq
      rw [getLsbD_signs hn _ (by omega), BitVec.getLsbD_extractLsb', decide_eq_true (by omega),
        Bool.true_and, show n + (k - n) = k by omega] at hbit
      exact hbit

end PS4Recomp.Library.Words
