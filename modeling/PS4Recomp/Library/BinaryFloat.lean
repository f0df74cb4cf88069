import Mathlib
import PS4Recomp.Library.Lanes

/-!
# Binary floating point

Floating-point formats as numbers of bits, with the values of their patterns as rationals.

* `RoundMode`, `round` — the four directions, and the integer that a rational is rounded to;
  `round_intCast`, `floor_le_round`, `round_le_ceil` — integers stay, others go to a neighbour;
* `Format` — the widths of exponent and fraction; a pattern is a number, its sign above its magnitude;
* `magValue`, `value` — what patterns stand for, `magValue_grid` — the values on the grid of an exponent;
* `roundMag`, `ofMag` — the magnitude a rational is rounded to, and a pattern with a sign;
* `natAbs_round_signed_iff` — up and down change places for negative values, the others do not;
* **`roundMag_of_exponent`** — a magnitude in range, on the grid of its exponent;
* **`roundMag_magValue`** — a value that has a pattern is rounded to it;
* `exists_mag` — the values that have one: multiples of a power of two with few enough digits;
* `frint`, `toIntSat`, `toIntIndefinite`, `flush` — rounding to an integer, the two conversions to a
  number of `w` bits, and subnormal numbers taken for zeros;
* `value_frint`, `round_even` — a pattern of the rounded value, and large ones are even;
* `round_subnormal`, **`toIntIndefinite_flush`** — when flushing the operand of a conversion shows.
-/

namespace PS4Recomp.Library

/-- The directions a value is rounded in. -/
inductive RoundMode where
  | nearest | up | down | zero
  deriving DecidableEq, Repr

namespace RoundMode

/-- The nearest integer, the even one of two. -/
def roundEven (q : ℚ) : ℤ :=
  if 2 * (q - ⌊q⌋) < 1 then ⌊q⌋
  else if 1 < 2 * (q - ⌊q⌋) then ⌊q⌋ + 1
  else ⌊q⌋ + ⌊q⌋ % 2

/-- The integer that a rational is rounded to. -/
def round : RoundMode → ℚ → ℤ
  | nearest, q => roundEven q
  | up, q => ⌈q⌉
  | down, q => ⌊q⌋
  | zero, q => if q < 0 then ⌈q⌉ else ⌊q⌋

variable (r : RoundMode) (q : ℚ)

theorem round_intCast (n : ℤ) : r.round n = n := by
  cases r with
  | nearest =>
      have hlt : 2 * ((n : ℚ) - (n : ℤ)) < 1 := by
        rw [sub_self]
        norm_num
      rw [round, roundEven, Int.floor_intCast, if_pos hlt]
  | up => exact Int.ceil_intCast n
  | down => exact Int.floor_intCast n
  | zero => rw [round, Int.ceil_intCast, Int.floor_intCast, ite_self]

theorem roundEven_bounds : ⌊q⌋ ≤ roundEven q ∧ roundEven q ≤ ⌈q⌉ := by
  have hle := Int.floor_le_ceil q
  rw [roundEven]
  split
  · exact ⟨le_refl _, hle⟩
  · rename_i hlo
    have hup : ⌊q⌋ + 1 ≤ ⌈q⌉ := by
      by_contra hc
      have heq : ⌈q⌉ = ⌊q⌋ := by omega
      have hq : q ≤ ⌊q⌋ := by
        rw [← heq]
        exact Int.le_ceil q
      linarith
    split
    · exact ⟨by omega, hup⟩
    · omega

theorem floor_le_round : ⌊q⌋ ≤ r.round q := by
  have hle := Int.floor_le_ceil q
  cases r with
  | nearest => exact (roundEven_bounds q).1
  | up => exact hle
  | down => exact le_refl _
  | zero =>
      rw [round]
      split
      · exact hle
      · exact le_refl _

theorem round_le_ceil : r.round q ≤ ⌈q⌉ := by
  have hle := Int.floor_le_ceil q
  cases r with
  | nearest => exact (roundEven_bounds q).2
  | up => exact le_refl _
  | down => exact hle
  | zero =>
      rw [round]
      split
      · exact le_refl _
      · exact hle

theorem round_mem {a b : ℤ} (ha : (a : ℚ) ≤ q) (hb : q ≤ b) : a ≤ r.round q ∧ r.round q ≤ b :=
  ⟨(Int.le_floor.2 ha).trans (floor_le_round r q), (round_le_ceil r q).trans (Int.ceil_le.2 hb)⟩

/-- The nearest integer to a quotient, from the remainder. -/
theorem roundEven_div (a : ℕ) {b : ℕ} (hb : 0 < b) :
    roundEven (a / b) =
      ((if 2 * (a % b) < b then a / b else if b < 2 * (a % b) then a / b + 1
        else a / b + a / b % 2 : ℕ) : ℤ) := by
  have hfloor : ⌊(a : ℚ) / b⌋ = (a / b : ℕ) := Rat.floor_natCast_div_natCast a b
  have hpos : (0 : ℚ) < b := Nat.cast_pos.2 hb
  have hsplit : (a : ℚ) = b * (a / b : ℕ) + (a % b : ℕ) := by exact_mod_cast (Nat.div_add_mod a b).symm
  have hfract : (a : ℚ) / b - ((a / b : ℕ) : ℤ) = (a % b : ℕ) / b := by
    rw [eq_div_iff hpos.ne', sub_mul, div_mul_cancel₀ _ hpos.ne', Int.cast_natCast]
    linarith
  have hlt : 2 * ((a : ℚ) / b - ((a / b : ℕ) : ℤ)) < 1 ↔ 2 * (a % b) < b := by
    rw [hfract, ← mul_div_assoc, div_lt_one hpos]
    exact_mod_cast Iff.rfl
  have hgt : 1 < 2 * ((a : ℚ) / b - ((a / b : ℕ) : ℤ)) ↔ b < 2 * (a % b) := by
    rw [hfract, ← mul_div_assoc, one_lt_div hpos]
    exact_mod_cast Iff.rfl
  rw [roundEven, hfloor]
  simp only [hlt, hgt]
  push_cast
  rfl

theorem roundEven_neg (q : ℚ) : roundEven (-q) = -roundEven q := by
  by_cases hint : q = ⌊q⌋
  · have hq : nearest.round q = ⌊q⌋ := hint ▸ nearest.round_intCast ⌊q⌋
    have hneg : nearest.round (-q) = -⌊q⌋ := by
      have hcast := nearest.round_intCast (-⌊q⌋)
      rwa [Int.cast_neg, ← hint] at hcast
    exact hneg.trans (congrArg (-·) hq.symm)
  · have hlow : (⌊q⌋ : ℚ) < q := lt_of_le_of_ne (Int.floor_le q) (Ne.symm hint)
    have hhigh := Int.lt_floor_add_one q
    have hfloor : ⌊-q⌋ = -⌊q⌋ - 1 :=
      Int.floor_eq_iff.2 ⟨by push_cast; linarith, by push_cast; linarith⟩
    rw [roundEven, roundEven, hfloor]
    push_cast
    rcases lt_trichotomy (2 * (q - ⌊q⌋)) 1 with hlt | heq | hgt
    · rw [if_pos hlt, if_neg (by linarith), if_pos (by linarith)]
      ring
    · rw [if_neg (by linarith), if_neg (by linarith), if_neg (by linarith), if_neg (by linarith)]
      omega
    · rw [if_neg (not_lt.2 hgt.le), if_pos hgt, if_pos (by linarith)]
      ring

end RoundMode

/-- A value with a sign. -/
def signed (s : Bool) (q : ℚ) : ℚ := if s then -q else q

/-- A fraction below one half is rounded to 0, or away from it. -/
theorem RoundMode.round_fraction (r : RoundMode) (s : Bool) {q : ℚ} (h : 0 < q) (h' : q < 1 / 2) :
    r.round (signed s q) =
      if r = .up ∧ s = false then 1 else if r = .down ∧ s = true then -1 else 0 := by
  have hfloor : ⌊q⌋ = 0 :=
    Int.floor_eq_iff.2 ⟨by rw [Int.cast_zero]; linarith, by rw [Int.cast_zero]; linarith⟩
  have hceil : ⌈q⌉ = 1 :=
    Int.ceil_eq_iff.2 ⟨by rw [Int.cast_one]; linarith, by rw [Int.cast_one]; linarith⟩
  have hfloor' : ⌊-q⌋ = -1 := by rw [Int.floor_neg, hceil]
  have hceil' : ⌈-q⌉ = 0 := by rw [Int.ceil_neg, hfloor, neg_zero]
  cases s with
  | false =>
      have hpos : ¬ q < 0 := not_lt.2 h.le
      have hlt : 2 * (q - (0 : ℤ)) < 1 := by
        rw [Int.cast_zero]
        linarith
      cases r with
      | nearest =>
          have heven : roundEven q = 0 := by rw [roundEven, hfloor, if_pos hlt]
          exact heven
      | up => exact hceil
      | down => exact hfloor
      | zero => exact (if_neg hpos).trans hfloor
  | true =>
      have hneg : -q < 0 := by linarith
      have hlt : ¬ 2 * (-q - (-1 : ℤ)) < 1 := by
        push_cast
        linarith
      have hgt : 1 < 2 * (-q - (-1 : ℤ)) := by
        push_cast
        linarith
      cases r with
      | nearest =>
          have heven : roundEven (-q) = -1 + 1 := by rw [roundEven, hfloor', if_neg hlt, if_pos hgt]
          exact heven
      | up => exact hceil'
      | down => exact hfloor'
      | zero => exact (if_pos hneg).trans hceil'

/-- **When the sign does not show.**  Up and down change places for negative values. -/
theorem natAbs_round_signed_iff (r : RoundMode) (s : Bool) {q : ℚ} (hq : 0 ≤ q) :
    (r.round q).natAbs = (r.round (signed s q)).natAbs ↔
      r = .nearest ∨ r = .zero ∨ s = false ∨ q = ⌊q⌋ := by
  cases s with
  | false => exact iff_of_true rfl (.inr (.inr (.inl rfl)))
  | true =>
      have hsigned : signed true q = -q := rfl
      have hfloor : 0 ≤ ⌊q⌋ := Int.floor_nonneg.2 hq
      have hceil : ⌊q⌋ ≤ ⌈q⌉ := Int.floor_le_ceil q
      have hint : q = ⌊q⌋ ↔ ⌈q⌉ = ⌊q⌋ := by
        constructor
        · intro h
          rw [h, Int.ceil_intCast, Int.floor_intCast]
        · intro h
          exact le_antisymm ((Int.le_ceil q).trans_eq (congrArg Int.cast h)) (Int.floor_le q)
      rw [hsigned]
      cases r with
      | nearest =>
          refine iff_of_true ?_ (.inl rfl)
          exact ((congrArg Int.natAbs (RoundMode.roundEven_neg q)).trans (Int.natAbs_neg _)).symm
      | zero =>
          refine iff_of_true ?_ (.inr (.inl rfl))
          rw [RoundMode.round, RoundMode.round, if_neg (not_lt.2 hq), Int.ceil_neg, Int.floor_neg]
          split
          · rw [Int.natAbs_neg]
          · rename_i hneg
            have hzero : q = 0 := by linarith
            rw [hzero, Int.floor_zero, Int.ceil_zero, neg_zero]
      | up =>
          rw [RoundMode.round, RoundMode.round, Int.ceil_neg, hint]
          constructor
          · intro h
            exact .inr (.inr (.inr (by omega)))
          · rintro (h | h | h | h)
            · cases h
            · cases h
            · cases h
            · omega
      | down =>
          rw [RoundMode.round, RoundMode.round, Int.floor_neg, hint]
          constructor
          · intro h
            exact .inr (.inr (.inr (by omega)))
          · rintro (h | h | h | h)
            · cases h
            · cases h
            · cases h
            · omega

/-- The widths of exponent and fraction of a format; the range of exponents is wider than the
fraction. -/
structure Format where
  ew : ℕ
  fw : ℕ
  fw_pos : 0 < fw
  fw_lt : fw < 2 ^ (ew - 1)

namespace Format

/-- `binary32`. -/
def single : Format where
  ew := 8
  fw := 23
  fw_pos := by decide
  fw_lt := by decide

/-- `binary64`. -/
def double : Format where
  ew := 11
  fw := 52
  fw_pos := by decide
  fw_lt := by decide

variable (F : Format)

theorem two_le_ew : 2 ≤ F.ew := by
  have hpos := F.fw_pos
  have hlt := F.fw_lt
  by_contra hc
  have hzero : F.ew - 1 = 0 := by omega
  rw [hzero, pow_zero] at hlt
  omega

theorem two_pow_ew : 2 ^ F.ew = 2 * 2 ^ (F.ew - 1) := by
  have hew := F.two_le_ew
  rw [← Nat.pow_succ', Nat.succ_eq_add_one, Nat.sub_add_cancel (by omega)]

/-- The exponent of the smallest normal numbers. -/
def emin : ℤ := 2 - 2 ^ (F.ew - 1)

/-- The bits of exponent and fraction of an infinity. -/
def infMag : ℕ := (2 ^ F.ew - 1) * 2 ^ F.fw

/-- The bits of exponent and fraction. -/
def mag (x : ℕ) : ℕ := x % 2 ^ (F.ew + F.fw)

/-- The sign bit. -/
def sign (x : ℕ) : Bool := x.testBit (F.ew + F.fw)

/-- A NaN. -/
def IsNan (x : ℕ) : Prop := F.infMag < F.mag x

/-- A finite number. -/
def IsFinite (x : ℕ) : Prop := F.mag x < F.infMag

instance (x : ℕ) : Decidable (F.IsNan x) := inferInstanceAs (Decidable (_ < _))

instance (x : ℕ) : Decidable (F.IsFinite x) := inferInstanceAs (Decidable (_ < _))

/-- The value of a magnitude. -/
def magValue (b : ℕ) : ℚ :=
  if b < 2 ^ F.fw then b * 2 ^ (F.emin - F.fw)
  else (2 ^ F.fw + b % 2 ^ F.fw : ℕ) * 2 ^ (F.emin - F.fw + (b / 2 ^ F.fw - 1 : ℕ))

/-- The value of a pattern. -/
def value (x : ℕ) : ℚ := signed (F.sign x) (F.magValue (F.mag x))

/-- The pattern of a magnitude with a sign. -/
def ofMag (s : Bool) (b : ℕ) : ℕ := (if s then 2 ^ (F.ew + F.fw) else 0) + b

theorem infMag_lt : F.infMag < 2 ^ (F.ew + F.fw) := by
  have hpos := Nat.two_pow_pos F.fw
  have hpos' := Nat.two_pow_pos F.ew
  rw [infMag, pow_add]
  exact Nat.mul_lt_mul_of_pos_right (by omega) hpos

variable {F}

theorem mag_ofMag {s : Bool} {b : ℕ} (h : b < 2 ^ (F.ew + F.fw)) : F.mag (F.ofMag s b) = b := by
  cases s with
  | false => exact (congrArg F.mag (Nat.zero_add b)).trans (Nat.mod_eq_of_lt h)
  | true => exact (Nat.add_mod_left _ _).trans (Nat.mod_eq_of_lt h)

theorem sign_ofMag {s : Bool} {b : ℕ} (h : b < 2 ^ (F.ew + F.fw)) : F.sign (F.ofMag s b) = s := by
  cases s with
  | false =>
      rw [ofMag, if_neg Bool.false_ne_true, Nat.zero_add, sign]
      exact Nat.testBit_lt_two_pow h
  | true =>
      rw [ofMag, if_pos rfl, sign, Nat.testBit_two_pow_add_eq, Nat.testBit_lt_two_pow h]
      rfl

theorem value_ofMag {s : Bool} {b : ℕ} (h : b < 2 ^ (F.ew + F.fw)) :
    F.value (F.ofMag s b) = signed s (F.magValue b) := by
  rw [value, mag_ofMag h, sign_ofMag h]

/-! ### the grid of an exponent -/

/-- **The grid.**  A magnitude is a number of steps of the size that belongs to its exponent; a step past
the last one is the first of the next exponent. -/
theorem magValue_grid {t n : ℕ} (hn : n ≤ 2 ^ (F.fw + 1)) (h : t = 0 ∨ 2 ^ F.fw ≤ n) :
    F.magValue (t * 2 ^ F.fw + n) = n * 2 ^ (F.emin - F.fw + t) := by
  have hpos := Nat.two_pow_pos F.fw
  rw [pow_succ] at hn
  by_cases hsmall : n < 2 ^ F.fw
  · obtain rfl : t = 0 := h.resolve_right (by omega)
    rw [Nat.zero_mul, Nat.zero_add, magValue, if_pos hsmall, Nat.cast_zero, add_zero]
  have hge : ¬ t * 2 ^ F.fw + n < 2 ^ F.fw := by omega
  rw [magValue, if_neg hge]
  rcases Nat.lt_or_ge n (2 ^ F.fw * 2) with hlt | htop
  · have hdiv : (t * 2 ^ F.fw + n) / 2 ^ F.fw = t + 1 := by
      have hone : n / 2 ^ F.fw = 1 := by
        rw [Nat.div_eq_iff hpos]
        omega
      rw [Nat.add_comm, Nat.add_mul_div_right _ _ hpos, hone, Nat.add_comm]
    have hmod : (t * 2 ^ F.fw + n) % 2 ^ F.fw = n - 2 ^ F.fw := by
      rw [Nat.mul_add_mod', Nat.mod_eq_sub_mod (by omega), Nat.mod_eq_of_lt (by omega)]
    rw [hdiv, hmod, Nat.add_sub_cancel, Nat.add_sub_cancel' (by omega)]
  · obtain rfl : n = 2 ^ F.fw * 2 := by omega
    have hsum : t * 2 ^ F.fw + 2 ^ F.fw * 2 = (t + 2) * 2 ^ F.fw := by ring
    rw [hsum, Nat.mul_div_cancel _ hpos, Nat.mul_mod_left, Nat.add_zero,
      show t + 2 - 1 = t + 1 from rfl]
    push_cast
    rw [← add_assoc, zpow_add_one₀ (by norm_num : (2 : ℚ) ≠ 0)]
    ring

/-! ### rounding -/

variable (F)

/-- The exponent of a value: that of its highest digit, or the smallest one. -/
def exponent (q : ℚ) : ℤ := if q = 0 then F.emin else max (Int.log 2 q) F.emin

/-- The size of a step at the exponent of a value. -/
def step (q : ℚ) : ℚ := 2 ^ (F.exponent q - F.fw)

/-- What a magnitude beyond all finite ones is rounded to. -/
def overflow (r : RoundMode) (s : Bool) : ℕ :=
  match r, s with
  | .nearest, _ => F.infMag
  | .zero, _ => F.infMag - 1
  | .up, s => if s then F.infMag - 1 else F.infMag
  | .down, s => if s then F.infMag else F.infMag - 1

/-- The magnitude that the value of a sign is rounded to. -/
def roundMag (r : RoundMode) (s : Bool) (q : ℚ) : ℕ :=
  let b := (F.exponent q - F.emin).toNat * 2 ^ F.fw + (r.round (signed s (q / F.step q))).natAbs
  if b < F.infMag then b else F.overflow r s

variable {F}

theorem log_eq {q : ℚ} {k : ℤ} (hlo : (2 : ℚ) ^ k ≤ q) (hhi : q < 2 ^ (k + 1)) : Int.log 2 q = k := by
  have hpos : 0 < q := lt_of_lt_of_le (zpow_pos (by norm_num) k) hlo
  refine le_antisymm ?_ ?_
  · have hlt := (Int.lt_zpow_iff_log_lt (b := 2) (by omega) hpos).1 (by exact_mod_cast hhi)
    omega
  · exact (Int.zpow_le_iff_le_log (b := 2) (by omega) hpos).1 (by exact_mod_cast hlo)

theorem natAbs_round_signed (r : RoundMode) (s : Bool) (n : ℕ) :
    (r.round (signed s n)).natAbs = n := by
  cases s with
  | false =>
      have hround : r.round (signed false n) = n := r.round_intCast n
      rw [hround]
      rfl
  | true =>
      have hcast : signed true n = ((-n : ℤ) : ℚ) := by
        rw [signed, if_pos rfl]
        push_cast
        rfl
      rw [hcast, r.round_intCast, Int.natAbs_neg]
      rfl

theorem roundMag_grid (r : RoundMode) (s : Bool) {q : ℚ} {t n : ℕ} (hexp : F.exponent q = F.emin + t)
    (hq : q = n * 2 ^ (F.emin - F.fw + t)) (hlt : t * 2 ^ F.fw + n < F.infMag) :
    F.roundMag r s q = t * 2 ^ F.fw + n := by
  have hstep : q / F.step q = n := by
    rw [step, hexp, hq, show F.emin + (t : ℤ) - F.fw = F.emin - F.fw + t by ring]
    exact mul_div_cancel_right₀ _ (zpow_ne_zero _ (by norm_num))
  have hplace : (F.exponent q - F.emin).toNat = t := by
    rw [hexp, add_sub_cancel_left, Int.toNat_natCast]
  rw [roundMag, hstep, hplace, natAbs_round_signed]
  exact if_pos hlt

theorem exponent_grid {t n : ℕ} (hn : n < 2 ^ (F.fw + 1)) (h : t = 0 ∨ 2 ^ F.fw ≤ n) :
    F.exponent (n * 2 ^ (F.emin - F.fw + t)) = F.emin + t := by
  have htwo : (2 : ℚ) ≠ 0 := by norm_num
  have hpow : (0 : ℚ) < 2 ^ (F.emin - F.fw + t) := zpow_pos (by norm_num) _
  have hhi : (n : ℚ) * 2 ^ (F.emin - F.fw + (t : ℤ)) < 2 ^ (F.emin + t + 1) := by
    have hcast : (n : ℚ) < 2 ^ ((F.fw : ℤ) + 1) := by exact_mod_cast hn
    have hmul := mul_lt_mul_of_pos_right hcast hpow
    rw [← zpow_add₀ htwo] at hmul
    rwa [show (F.fw : ℤ) + 1 + (F.emin - F.fw + t) = F.emin + t + 1 by ring] at hmul
  rw [exponent]
  by_cases hzero : n = 0
  · obtain rfl : t = 0 := h.resolve_right (by rw [hzero]; exact Nat.not_le.2 (Nat.two_pow_pos _))
    rw [hzero, Nat.cast_zero, zero_mul, if_pos rfl, Nat.cast_zero, add_zero]
  have hq : (n : ℚ) * 2 ^ (F.emin - F.fw + (t : ℤ)) ≠ 0 :=
    mul_ne_zero (Nat.cast_ne_zero.2 hzero) hpow.ne'
  rw [if_neg hq]
  have hqpos : 0 < (n : ℚ) * 2 ^ (F.emin - F.fw + (t : ℤ)) :=
    mul_pos (Nat.cast_pos.2 (Nat.pos_of_ne_zero hzero)) hpow
  have hlog : Int.log 2 ((n : ℚ) * 2 ^ (F.emin - F.fw + (t : ℤ))) ≤ F.emin + t := by
    have hlt := (Int.lt_zpow_iff_log_lt (b := 2) (by omega) hqpos).1 (by exact_mod_cast hhi)
    omega
  rcases h with rfl | hge
  · simp only [Nat.cast_zero, add_zero] at hlog ⊢
    exact max_eq_right hlog
  · have hlo : (2 : ℚ) ^ (F.emin + t) ≤ n * 2 ^ (F.emin - F.fw + (t : ℤ)) := by
      have hcast : (2 : ℚ) ^ (F.fw : ℤ) ≤ n := by exact_mod_cast hge
      have hmul := mul_le_mul_of_nonneg_right hcast hpow.le
      rw [← zpow_add₀ htwo] at hmul
      rwa [show (F.fw : ℤ) + (F.emin - F.fw + t) = F.emin + t by ring] at hmul
    rw [log_eq hlo hhi]
    exact max_eq_left (by omega)

theorem overflow_of_away {r : RoundMode} {s : Bool} {q : ℚ} (hq : 0 ≤ q)
    (h : q < (r.round (signed s q)).natAbs) : F.overflow r s = F.infMag := by
  have hfloor : 0 ≤ ⌊q⌋ := Int.floor_nonneg.2 hq
  -- the floor of the magnitude is not above it
  have hnot : ∀ z : ℤ, z.natAbs = ⌊q⌋ → z = r.round (signed s q) → False := by
    intro z hz hround
    have hcast : (z.natAbs : ℚ) = ⌊q⌋ := by
      rw [← hz, Int.cast_natCast]
    rw [← hround, hcast] at h
    exact absurd (Int.floor_le q) (not_le.2 h)
  cases r with
  | nearest => rfl
  | zero =>
      exfalso
      cases s with
      | false => exact hnot ⌊q⌋ (by omega) (if_neg (not_lt.2 hq)).symm
      | true =>
          refine hnot (-⌊q⌋) (by omega) ?_
          show -⌊q⌋ = if -q < 0 then ⌈-q⌉ else ⌊-q⌋
          split
          · exact Int.ceil_neg.symm
          · rename_i hneg
            have hzero : q = 0 := by linarith
            rw [hzero, neg_zero, Int.floor_zero, neg_zero]
  | up =>
      cases s with
      | false => rfl
      | true => exact (hnot (-⌊q⌋) (by omega) Int.ceil_neg.symm).elim
  | down =>
      cases s with
      | false => exact (hnot ⌊q⌋ (by omega) rfl).elim
      | true => rfl

/-- **A magnitude in range** is rounded on the grid of its exponent. -/
theorem roundMag_of_exponent (r : RoundMode) (s : Bool) {q : ℚ} {t : ℕ} (hq : 0 ≤ q)
    (hexp : F.exponent q = F.emin + t) (hlt : q < 2 ^ (F.emin + 2 ^ F.ew - 2)) :
    F.roundMag r s q =
      t * 2 ^ F.fw + (r.round (signed s (q / 2 ^ (F.emin - F.fw + t)))).natAbs := by
  have htwo : (2 : ℚ) ≠ 0 := by norm_num
  have hstep : F.step q = 2 ^ (F.emin - F.fw + t) := by
    rw [step, hexp]
    congr 1
    ring
  have hpos : (0 : ℚ) < 2 ^ (F.emin - F.fw + (t : ℤ)) := zpow_pos (by norm_num) _
  have hplace : (F.exponent q - F.emin).toNat = t := by
    rw [hexp, add_sub_cancel_left, Int.toNat_natCast]
  rw [roundMag, hstep, hplace]
  obtain ⟨y, hy⟩ : ∃ y, y = q / 2 ^ (F.emin - F.fw + (t : ℤ)) := ⟨_, rfl⟩
  have hy0 : 0 ≤ y := hy ▸ div_nonneg hq hpos.le
  -- the last place of its exponent is below the next power of two
  have hylt : y < (2 ^ (F.fw + 1) : ℕ) := by
    have hhi : q < 2 ^ (F.emin + t + 1) := by
      rw [exponent] at hexp
      split at hexp
      · rename_i hzero
        rw [hzero]
        exact zpow_pos (by norm_num) _
      · have hle : Int.log 2 q ≤ F.emin + t := (le_max_left _ _).trans_eq hexp
        exact lt_of_lt_of_le (Int.lt_zpow_succ_log_self (by norm_num) q)
          (zpow_le_zpow_right₀ (by norm_num) (by push_cast; omega))
    rw [hy, div_lt_iff₀ hpos]
    refine lt_of_lt_of_eq hhi ?_
    rw [Nat.cast_pow, ← zpow_natCast, Nat.cast_ofNat, ← zpow_add₀ htwo]
    congr 1
    push_cast
    ring
  have ht : t + 3 ≤ 2 ^ F.ew := by
    have hew : 2 ^ 2 ≤ 2 ^ F.ew := Nat.pow_le_pow_right (by omega) F.two_le_ew
    rcases Nat.eq_zero_or_pos t with hzero | htpos
    · omega
    · have hne : q ≠ 0 := by
        intro hzero
        rw [exponent, if_pos hzero] at hexp
        omega
      have hlog : Int.log 2 q = F.emin + t := by
        rw [exponent, if_neg hne] at hexp
        omega
      have hle : (2 : ℚ) ^ (F.emin + (t : ℤ)) ≤ q := by
        rw [← hlog]
        exact_mod_cast Int.zpow_log_le_self (b := 2) (by norm_num) (lt_of_le_of_ne hq (Ne.symm hne))
      have hexplt := (zpow_lt_zpow_iff_right₀ (by norm_num : (1 : ℚ) < 2)).1 (lt_of_le_of_lt hle hlt)
      have hcast : ((t + 3 : ℕ) : ℤ) ≤ ((2 ^ F.ew : ℕ) : ℤ) := by
        push_cast
        omega
      exact_mod_cast hcast
  rw [← hy]
  split
  · rfl
  · rename_i hge
    have hmul := Nat.mul_le_mul_right (2 ^ F.fw) (show t + 2 ≤ 2 ^ F.ew - 1 by omega)
    rw [Nat.add_mul] at hmul
    rw [infMag] at hge
    have hmem : (r.round (signed s y)).natAbs ≤ 2 ^ (F.fw + 1) := by
      have hcast : y ≤ ((2 ^ (F.fw + 1) : ℕ) : ℤ) := by exact_mod_cast hylt.le
      have hbounds := r.round_mem (signed s y) (a := -((2 ^ (F.fw + 1) : ℕ) : ℤ)) (b := ((2 ^ (F.fw + 1) : ℕ) : ℤ))
        (by rw [signed]; push_cast at hcast ⊢; split <;> linarith)
        (by rw [signed]; push_cast at hcast ⊢; split <;> linarith)
      omega
    have htop : (r.round (signed s y)).natAbs = 2 ^ (F.fw + 1) := by
      rw [pow_succ] at hmem ⊢
      omega
    rw [overflow_of_away hy0 (by rw [htop]; exact hylt), infMag, htop]
    rw [pow_succ] at htop hmem ⊢
    omega

theorem grid_of_mag (b : ℕ) : ∃ t n, b = t * 2 ^ F.fw + n ∧ n < 2 ^ (F.fw + 1) ∧
    (t = 0 ∨ 2 ^ F.fw ≤ n) := by
  have hpos := Nat.two_pow_pos F.fw
  have hdiv := Nat.div_add_mod b (2 ^ F.fw)
  have hmod := Nat.mod_lt b hpos
  rw [Nat.mul_comm] at hdiv
  rw [pow_succ]
  by_cases hsmall : b < 2 ^ F.fw
  · exact ⟨0, b, by omega, by omega, .inl rfl⟩
  · have hge : 1 ≤ b / 2 ^ F.fw := (Nat.one_le_div_iff hpos).2 (Nat.not_lt.1 hsmall)
    refine ⟨b / 2 ^ F.fw - 1, 2 ^ F.fw + b % 2 ^ F.fw, ?_, by omega, .inr (by omega)⟩
    rw [Nat.sub_mul, Nat.one_mul]
    have hle := Nat.mul_le_mul_right (2 ^ F.fw) hge
    omega

/-- **Values that have a pattern** are rounded to it, in every direction. -/
theorem roundMag_magValue (r : RoundMode) (s : Bool) {b : ℕ} (hb : b < F.infMag) :
    F.roundMag r s (F.magValue b) = b := by
  obtain ⟨t, n, rfl, hn, h⟩ := grid_of_mag (F := F) b
  have hvalue := magValue_grid (F := F) hn.le h
  refine roundMag_grid r s ?_ hvalue hb
  rw [hvalue]
  exact exponent_grid hn h

theorem emin_le (F : Format) : F.emin ≤ 0 := by
  have hew := F.two_le_ew
  have hge : 2 ^ 1 ≤ 2 ^ (F.ew - 1) := Nat.pow_le_pow_right (by omega) (by omega)
  have hcast : (2 : ℤ) ≤ 2 ^ (F.ew - 1) := by exact_mod_cast hge
  rw [emin]
  omega

theorem emin_add (F : Format) : F.emin + 2 ^ F.ew - 2 = 2 ^ (F.ew - 1) := by
  have hpow : (2 : ℤ) ^ F.ew = 2 * 2 ^ (F.ew - 1) := by exact_mod_cast F.two_pow_ew
  rw [emin, hpow]
  ring

/-- **Patterns.**  A multiple of the smallest step that is below the bound and has few enough digits has
one. -/
theorem exists_mag {n t : ℕ} (hn : n < 2 ^ (F.fw + 1))
    (hlt : (n : ℚ) * 2 ^ (F.emin - F.fw + t) < 2 ^ (F.emin + 2 ^ F.ew - 2)) :
    ∃ b, b < F.infMag ∧ F.magValue b = n * 2 ^ (F.emin - F.fw + t) := by
  have hpos := Nat.two_pow_pos F.fw
  have hew : 2 ^ 2 ≤ 2 ^ F.ew := Nat.pow_le_pow_right (by omega) F.two_le_ew
  have htwo : (2 : ℚ) ≠ 0 := by norm_num
  induction t generalizing n with
  | zero =>
      have hle : 2 * 2 ^ F.fw ≤ F.infMag := Nat.mul_le_mul_right _ (by omega)
      rw [pow_succ] at hn
      refine ⟨0 * 2 ^ F.fw + n, by omega, magValue_grid (by rw [pow_succ]; omega) (.inl rfl)⟩
  | succ t ih =>
      by_cases hge : 2 ^ F.fw ≤ n
      · refine ⟨(t + 1) * 2 ^ F.fw + n, ?_, magValue_grid hn.le (.inr hge)⟩
        have hlow : (2 : ℚ) ^ (F.emin + ((t + 1 : ℕ) : ℤ)) < 2 ^ (F.emin + 2 ^ F.ew - 2) := by
          have hcast : (2 : ℚ) ^ (F.fw : ℤ) ≤ n := by exact_mod_cast hge
          have hmul := mul_le_mul_of_nonneg_right hcast
            (zpow_pos (by norm_num : (0 : ℚ) < 2) (F.emin - F.fw + ((t + 1 : ℕ) : ℤ))).le
          rw [← zpow_add₀ htwo, show (F.fw : ℤ) + (F.emin - F.fw + ((t + 1 : ℕ) : ℤ)) =
            F.emin + ((t + 1 : ℕ) : ℤ) by ring] at hmul
          exact lt_of_le_of_lt hmul hlt
        have ht := (zpow_lt_zpow_iff_right₀ (by norm_num : (1 : ℚ) < 2)).1 hlow
        have ht' : t + 3 < 2 ^ F.ew := by
          have hcast : ((t + 3 : ℕ) : ℤ) < ((2 ^ F.ew : ℕ) : ℤ) := by
            push_cast at ht ⊢
            omega
          exact_mod_cast hcast
        have hmul := Nat.mul_le_mul_right (2 ^ F.fw) (show t + 1 + 2 ≤ 2 ^ F.ew - 1 by omega)
        rw [Nat.add_mul] at hmul
        rw [pow_succ] at hn
        rw [infMag]
        omega
      · have hdouble : (n : ℚ) * 2 ^ (F.emin - F.fw + ((t + 1 : ℕ) : ℤ)) =
            ((2 * n : ℕ) : ℚ) * 2 ^ (F.emin - F.fw + t) := by
          push_cast
          rw [← add_assoc, zpow_add_one₀ htwo]
          ring
        rw [hdouble] at hlt ⊢
        exact ih (by rw [pow_succ]; omega) hlt

/-- Finite values are below the first power of two beyond them. -/
theorem magValue_lt {b : ℕ} (h : b < F.infMag) : F.magValue b < 2 ^ (F.emin + 2 ^ F.ew - 2) := by
  have hpos := Nat.two_pow_pos F.fw
  have hew : 2 ^ 2 ≤ 2 ^ F.ew := Nat.pow_le_pow_right (by omega) F.two_le_ew
  obtain ⟨t, n, rfl, hn, hgrid⟩ := grid_of_mag (F := F) b
  have ht : t + 3 ≤ 2 ^ F.ew := by
    rcases hgrid with rfl | hge
    · omega
    · by_contra hc
      have hmul := Nat.mul_le_mul_right (2 ^ F.fw) (show 2 ^ F.ew - 1 ≤ t + 1 by omega)
      rw [Nat.add_mul] at hmul
      rw [infMag] at h
      omega
  have hcast : (n : ℚ) < 2 ^ ((F.fw : ℤ) + 1) := by exact_mod_cast hn
  rw [magValue_grid hn.le hgrid]
  calc (n : ℚ) * 2 ^ (F.emin - F.fw + t) < 2 ^ ((F.fw : ℤ) + 1) * 2 ^ (F.emin - F.fw + t) :=
        mul_lt_mul_of_pos_right hcast (zpow_pos (by norm_num) _)
    _ = 2 ^ (F.emin + t + 1) := by
        rw [← zpow_add₀ (by norm_num : (2 : ℚ) ≠ 0)]
        congr 1
        ring
    _ ≤ 2 ^ (F.emin + 2 ^ F.ew - 2) := by
        have hle : ((t + 3 : ℕ) : ℤ) ≤ ((2 ^ F.ew : ℕ) : ℤ) := by exact_mod_cast ht
        refine zpow_le_zpow_right₀ (by norm_num) ?_
        push_cast at hle
        omega

/-! ### conversions to integers -/

variable (F)

/-- A NaN made quiet. -/
def quiet (x : ℕ) : ℕ := x ||| 2 ^ (F.fw - 1)

/-- Subnormal numbers taken for zeros. -/
def flush (on : Bool) (x : ℕ) : ℕ := if on ∧ F.mag x < 2 ^ F.fw then F.ofMag (F.sign x) 0 else x

/-- The number rounded to an integral one. -/
def frint (r : RoundMode) (x : ℕ) : ℕ :=
  if F.IsNan x then F.quiet x
  else if F.IsFinite x then
    F.ofMag (F.sign x) (F.roundMag r (F.sign x) ((r.round (F.value x)).natAbs : ℚ))
  else x

/-- The nearest signed integer of `w` bits to the rounded value, 0 for a NaN. -/
def toIntSat (w : ℕ) (r : RoundMode) (x : ℕ) : BitVec w :=
  if F.IsNan x then 0
  else if F.IsFinite x then Lanes.saturate w (r.round (F.value x))
  else if F.sign x then BitVec.intMin w
  else BitVec.intMax w

/-- The rounded value as a signed integer of `w` bits, the most negative one where there is none. -/
def toIntIndefinite (w : ℕ) (r : RoundMode) (x : ℕ) : BitVec w :=
  if F.IsFinite x ∧ -2 ^ (w - 1) ≤ r.round (F.value x) ∧ r.round (F.value x) < 2 ^ (w - 1) then
    BitVec.ofInt w (r.round (F.value x))
  else BitVec.intMin w

variable {F} {x : ℕ}

theorem magValue_nonneg (b : ℕ) : 0 ≤ F.magValue b := by
  have hpow : ∀ k : ℤ, (0 : ℚ) ≤ 2 ^ k := fun k => (zpow_pos (by norm_num) k).le
  rw [magValue]
  split
  · exact mul_nonneg (Nat.cast_nonneg _) (hpow _)
  · exact mul_nonneg (Nat.cast_nonneg _) (hpow _)

theorem signed_natAbs_round (r : RoundMode) (s : Bool) {q : ℚ} (hq : 0 ≤ q) :
    signed s ((r.round (signed s q)).natAbs : ℚ) = r.round (signed s q) := by
  cases s with
  | false =>
      have hge : 0 ≤ r.round (signed false q) :=
        (Int.le_floor.2 (by exact_mod_cast hq)).trans (r.floor_le_round _)
      rw [← Int.cast_natCast, Int.natAbs_of_nonneg hge]
      rfl
  | true =>
      have hle : r.round (signed true q) ≤ 0 := by
        refine (r.round_le_ceil _).trans (Int.ceil_le.2 ?_)
        rw [signed, if_pos rfl, Int.cast_zero]
        linarith
      rw [← Int.cast_natCast, Int.ofNat_natAbs_of_nonpos hle, signed, if_pos rfl, Int.cast_neg, neg_neg]

/-- The rounded value of a finite number: the value itself, a number of few digits times a power of two,
or one of few digits. -/
theorem natAbs_round (r : RoundMode) (x : ℕ) :
    (∃ n e : ℕ, n < 2 ^ (F.fw + 1) ∧ F.magValue (F.mag x) = (n * 2 ^ e : ℕ) ∧
      (r.round (F.value x)).natAbs = n * 2 ^ e) ∨ (r.round (F.value x)).natAbs ≤ 2 ^ F.fw := by
  obtain ⟨t, n, hb, hn, h⟩ := grid_of_mag (F := F) (F.mag x)
  have hvalue := magValue_grid (F := F) hn.le h
  rw [← hb] at hvalue
  rcases le_or_gt 0 (F.emin - F.fw + t) with hint | hfrac
  · obtain ⟨e, he⟩ := Int.eq_ofNat_of_zero_le hint
    rw [he] at hvalue
    have hcast : F.magValue (F.mag x) = (n * 2 ^ e : ℕ) := by
      rw [hvalue]
      push_cast
      rfl
    refine .inl ⟨n, e, hn, hcast, ?_⟩
    rw [value, hcast]
    exact natAbs_round_signed r _ _
  · right
    have hle : F.magValue (F.mag x) ≤ (2 ^ F.fw : ℕ) := by
      have hpow : (2 : ℚ) ^ (F.emin - F.fw + (t : ℤ)) ≤ 2 ^ (-1 : ℤ) :=
        zpow_le_zpow_right₀ (by norm_num) (by omega)
      have hcast : (n : ℚ) ≤ 2 * (2 ^ F.fw : ℕ) := by
        rw [pow_succ] at hn
        exact_mod_cast (show n ≤ 2 * 2 ^ F.fw by omega)
      rw [hvalue]
      calc (n : ℚ) * 2 ^ (F.emin - F.fw + (t : ℤ)) ≤ (2 * (2 ^ F.fw : ℕ)) * 2 ^ (-1 : ℤ) :=
            mul_le_mul hcast hpow (zpow_pos (by norm_num) _).le (by positivity)
        _ = (2 ^ F.fw : ℕ) := by
            rw [zpow_neg_one]
            ring
    have hge := magValue_nonneg (F := F) (F.mag x)
    have hmem := r.round_mem (F.value x) (a := -(2 ^ F.fw : ℕ)) (b := (2 ^ F.fw : ℕ))
      (by rw [value, signed]; push_cast at hle ⊢; split <;> linarith)
      (by rw [value, signed]; push_cast at hle ⊢; split <;> linarith)
    omega

/-- **Rounding to an integral number** gives a pattern of the rounded value. -/
theorem value_frint (r : RoundMode) (hx : F.IsFinite x) :
    F.IsFinite (F.frint r x) ∧ F.value (F.frint r x) = r.round (F.value x) := by
  have hnan : ¬ F.IsNan x := Nat.not_lt.2 (Nat.le_of_lt hx)
  obtain ⟨b, hb, hbv⟩ : ∃ b, b < F.infMag ∧ F.magValue b = ((r.round (F.value x)).natAbs : ℚ) := by
    rcases natAbs_round (F := F) r x with ⟨n, e, -, hvalue, hround⟩ | hle
    · exact ⟨F.mag x, hx, by rw [hvalue, hround]⟩
    · -- a number of few digits is a multiple of the smallest step
      obtain ⟨t, ht⟩ := Int.eq_ofNat_of_zero_le
        (show 0 ≤ (F.fw : ℤ) - F.emin by have hle := F.emin_le; omega)
      have hone : (2 : ℚ) ^ (F.emin - F.fw + (t : ℤ)) = 1 := by
        rw [← ht, show F.emin - F.fw + ((F.fw : ℤ) - F.emin) = 0 by ring, zpow_zero]
      have hlt : ((r.round (F.value x)).natAbs : ℚ) < 2 ^ (F.emin + 2 ^ F.ew - 2) := by
        rw [F.emin_add]
        have hpow : 2 ^ F.fw < 2 ^ 2 ^ (F.ew - 1) := Nat.pow_lt_pow_right (by omega) F.fw_lt
        have hcast : ((r.round (F.value x)).natAbs : ℚ) < (2 ^ 2 ^ (F.ew - 1) : ℕ) := by
          exact_mod_cast lt_of_le_of_lt hle hpow
        refine lt_of_lt_of_eq hcast ?_
        push_cast
        exact (zpow_natCast (2 : ℚ) (2 ^ (F.ew - 1))).symm.trans (by push_cast; rfl)
      obtain ⟨b, hb, hbv⟩ := exists_mag (F := F) (n := (r.round (F.value x)).natAbs) (t := t)
        (by rw [pow_succ]; have hpos := Nat.two_pow_pos F.fw; omega) (by rwa [hone, mul_one])
      exact ⟨b, hb, by rw [hbv, hone, mul_one]⟩
  have hbound : b < 2 ^ (F.ew + F.fw) := lt_trans hb F.infMag_lt
  have hfrint : F.frint r x = F.ofMag (F.sign x) b := by
    rw [frint, if_neg hnan, if_pos hx, ← hbv, roundMag_magValue r _ hb]
  rw [hfrint]
  refine ⟨by rwa [IsFinite, mag_ofMag hbound], ?_⟩
  rw [value_ofMag hbound, hbv]
  exact signed_natAbs_round r _ (magValue_nonneg _)

/-- A rounded value with more digits than the fraction has is even. -/
theorem round_even (r : RoundMode) (h : 2 ^ (F.fw + 1) ≤ (r.round (F.value x)).natAbs) :
    2 ∣ (r.round (F.value x)).natAbs := by
  rcases natAbs_round (F := F) r x with ⟨n, e, hn, -, hround⟩ | hle
  · rw [hround] at h ⊢
    cases e with
    | zero =>
        rw [pow_zero, Nat.mul_one] at h
        omega
    | succ e => exact Nat.dvd_mul_left_of_dvd (Nat.dvd_of_mod_eq_zero (by rw [pow_succ]; omega)) n
  · rw [pow_succ] at h
    have hpos := Nat.two_pow_pos F.fw
    omega

/-! ### patterns -/

theorem ofMag_lt (s : Bool) {b : ℕ} (h : b < 2 ^ (F.ew + F.fw)) : F.ofMag s b < 2 ^ (F.ew + F.fw + 1) := by
  rw [ofMag, pow_succ]
  split
  · omega
  · omega

theorem ofMag_mag (h : x < 2 ^ (F.ew + F.fw + 1)) : F.ofMag (F.sign x) (F.mag x) = x := by
  have hdiv := Nat.div_add_mod x (2 ^ (F.ew + F.fw))
  have hlt : x / 2 ^ (F.ew + F.fw) < 2 := Nat.div_lt_of_lt_mul (by rwa [← pow_succ])
  rw [ofMag, sign, mag, Nat.testBit_eq_decide_div_mod_eq]
  obtain ⟨k, hk⟩ : ∃ k, k = x / 2 ^ (F.ew + F.fw) := ⟨_, rfl⟩
  rw [← hk] at hdiv hlt ⊢
  obtain rfl | rfl : k = 0 ∨ k = 1 := by omega
  · rw [if_neg (by decide)]
    omega
  · rw [if_pos (by decide)]
    omega

theorem mag_lt (x : ℕ) : F.mag x < 2 ^ (F.ew + F.fw) := Nat.mod_lt _ (Nat.two_pow_pos _)

theorem roundMag_lt (r : RoundMode) (s : Bool) (q : ℚ) : F.roundMag r s q < 2 ^ (F.ew + F.fw) := by
  have hlt := F.infMag_lt
  have hover : F.overflow r s ≤ F.infMag := by
    cases r with
    | nearest => exact Nat.le_refl _
    | zero => exact Nat.sub_le _ _
    | up =>
        rw [overflow]
        split
        · exact Nat.sub_le _ _
        · exact Nat.le_refl _
    | down =>
        rw [overflow]
        split
        · exact Nat.le_refl _
        · exact Nat.sub_le _ _
  rw [roundMag]
  split
  · omega
  · omega

theorem quiet_bit (F : Format) : F.fw - 1 < F.ew + F.fw := by
  have hpos := F.fw_pos
  omega

theorem mag_quiet (x : ℕ) : F.mag (F.quiet x) = F.mag x ||| 2 ^ (F.fw - 1) := by
  rw [mag, mag, quiet, Nat.or_mod_two_pow, Nat.mod_eq_of_lt (Nat.pow_lt_pow_right (by omega) F.quiet_bit)]

theorem isNan_quiet (h : F.IsNan x) : F.IsNan (F.quiet x) := by
  rw [IsNan, mag_quiet]
  exact Nat.lt_of_lt_of_le h Nat.left_le_or

theorem frint_lt (r : RoundMode) (hx : x < 2 ^ (F.ew + F.fw + 1)) : F.frint r x < 2 ^ (F.ew + F.fw + 1) := by
  rw [frint]
  split
  · refine Nat.or_lt_two_pow hx (Nat.pow_lt_pow_right (by omega) ?_)
    have hbit := F.quiet_bit
    omega
  · split
    · exact ofMag_lt _ (roundMag_lt r _ _)
    · exact hx

theorem flush_lt (on : Bool) (hx : x < 2 ^ (F.ew + F.fw + 1)) : F.flush on x < 2 ^ (F.ew + F.fw + 1) := by
  rw [flush]
  split
  · exact ofMag_lt _ (Nat.two_pow_pos _)
  · exact hx

/-- A pattern that flushing changes is one of a small number, and becomes a zero. -/
theorem flush_cases (on : Bool) (x : ℕ) : F.flush on x = x ∨
    F.mag x < 2 ^ F.fw ∧ F.mag (F.flush on x) = 0 := by
  rw [flush]
  split
  · rename_i h
    exact .inr ⟨h.2, mag_ofMag (Nat.two_pow_pos _)⟩
  · exact .inl rfl

theorem two_pow_fw_le_infMag : 2 ^ F.fw ≤ F.infMag := by
  have hew : 2 ^ 2 ≤ 2 ^ F.ew := Nat.pow_le_pow_right (by omega) F.two_le_ew
  have hmul := Nat.mul_le_mul_right (2 ^ F.fw) (show 1 ≤ 2 ^ F.ew - 1 by omega)
  rw [infMag]
  omega

theorem trunc_small (h : F.mag x < 2 ^ F.fw) : RoundMode.zero.round (F.value x) = 0 := by
  have hlt : F.magValue (F.mag x) < 1 := by
    have hpow : (2 : ℚ) ^ (F.emin - F.fw) ≤ 2 ^ (-(F.fw : ℤ)) :=
      zpow_le_zpow_right₀ (by norm_num) (by have hle := F.emin_le; omega)
    have hcast : (F.mag x : ℚ) < 2 ^ (F.fw : ℤ) := by exact_mod_cast h
    rw [magValue, if_pos h]
    calc (F.mag x : ℚ) * 2 ^ (F.emin - F.fw) ≤ F.mag x * 2 ^ (-(F.fw : ℤ)) :=
          mul_le_mul_of_nonneg_left hpow (Nat.cast_nonneg _)
      _ < 2 ^ (F.fw : ℤ) * 2 ^ (-(F.fw : ℤ)) :=
          mul_lt_mul_of_pos_right hcast (zpow_pos (by norm_num) _)
      _ = 1 := by rw [← zpow_add₀ (by norm_num : (2 : ℚ) ≠ 0), add_neg_cancel, zpow_zero]
  have hge := magValue_nonneg (F := F) (F.mag x)
  rw [RoundMode.round]
  cases hs : F.sign x with
  | false =>
      rw [value, hs, signed, if_neg Bool.false_ne_true, if_neg (not_lt.2 hge)]
      exact Int.floor_eq_iff.2 ⟨by exact_mod_cast hge, by rw [Int.cast_zero, zero_add]; exact hlt⟩
  | true =>
      rw [value, hs, signed, if_pos rfl]
      split
      · exact Int.ceil_eq_iff.2 ⟨by rw [Int.cast_zero]; linarith, by rw [Int.cast_zero]; linarith⟩
      · rename_i hneg
        have hzero : F.magValue (F.mag x) = 0 := by linarith
        rw [hzero, neg_zero, Int.floor_zero]

theorem toIntSat_flush (on : Bool) (w : ℕ) (x : ℕ) :
    F.toIntSat w .zero (F.flush on x) = F.toIntSat w .zero x := by
  rcases flush_cases (F := F) on x with heq | ⟨hsmall, hzero⟩
  · rw [heq]
  · have hle := two_pow_fw_le_infMag (F := F)
    have hpos := Nat.two_pow_pos F.fw
    have hsat : ∀ {y : ℕ}, F.mag y < 2 ^ F.fw → F.toIntSat w .zero y = Lanes.saturate w 0 := by
      intro y hy
      have hnan : ¬ F.IsNan y := Nat.not_lt.2 (by omega)
      have hfin : F.IsFinite y := Nat.lt_of_lt_of_le hy hle
      rw [toIntSat, if_neg hnan, if_pos hfin, trunc_small hy]
    rw [hsat hsmall, hsat (by rw [hzero]; exact hpos)]

/-- **Rounding, and then truncating**, gives the rounded value. -/
theorem toIntSat_frint (r : RoundMode) (w : ℕ) (x : ℕ) :
    F.toIntSat w .zero (F.frint r x) = F.toIntSat w r x := by
  by_cases hnan : F.IsNan x
  · have hnan' := isNan_quiet hnan
    rw [frint, if_pos hnan, toIntSat, if_pos hnan', toIntSat, if_pos hnan]
  by_cases hfin : F.IsFinite x
  · obtain ⟨hfin', hvalue⟩ := value_frint r hfin
    have hnan' : ¬ F.IsNan (F.frint r x) := Nat.not_lt.2 (Nat.le_of_lt hfin')
    rw [toIntSat, if_neg hnan', if_pos hfin', hvalue, RoundMode.round_intCast, toIntSat, if_neg hnan,
      if_pos hfin]
  · rw [frint, if_neg hnan, if_neg hfin, toIntSat, if_neg hnan, if_neg hfin, toIntSat, if_neg hnan,
      if_neg hfin]

theorem isNan_frint (r : RoundMode) : F.IsNan (F.frint r x) ↔ F.IsNan x := by
  by_cases hnan : F.IsNan x
  · have hnan' := isNan_quiet hnan
    rw [frint, if_pos hnan]
    exact iff_of_true hnan' hnan
  · refine iff_of_false ?_ hnan
    by_cases hfin : F.IsFinite x
    · exact Nat.not_lt.2 (Nat.le_of_lt (value_frint r hfin).1)
    · rw [frint, if_neg hnan, if_neg hfin]
      exact hnan

theorem isNan_flush (on : Bool) (x : ℕ) : F.IsNan (F.flush on x) ↔ F.IsNan x := by
  rcases flush_cases (F := F) on x with heq | ⟨hsmall, hzero⟩
  · rw [heq]
  · have hle := two_pow_fw_le_infMag (F := F)
    exact iff_of_false (Nat.not_lt.2 (by omega)) (Nat.not_lt.2 (by omega))

/-! ### flushed operands -/

/-- A subnormal number that is rounded to an integer other than 0. -/
def RoundsAway (F : Format) (r : RoundMode) (x : ℕ) : Prop :=
  0 < F.mag x ∧ F.mag x < 2 ^ F.fw ∧ (r = .up ∧ F.sign x = false ∨ r = .down ∧ F.sign x = true)

instance (r : RoundMode) (x : ℕ) : Decidable (F.RoundsAway r x) := inferInstanceAs (Decidable (_ ∧ _))

theorem round_subnormal (hemin : F.emin ≤ -1) (r : RoundMode) (h : F.mag x < 2 ^ F.fw) :
    r.round (F.value x) = if F.RoundsAway r x then (if F.sign x then -1 else 1) else 0 := by
  rcases Nat.eq_zero_or_pos (F.mag x) with hzero | hpos
  · have hvalue : F.value x = (0 : ℤ) := by
      rw [value, magValue, if_pos h, hzero, Nat.cast_zero, zero_mul, signed, neg_zero, ite_self, Int.cast_zero]
    have hnot : ¬ F.RoundsAway r x := fun hr => Nat.lt_irrefl 0 (hzero ▸ hr.1)
    rw [hvalue, RoundMode.round_intCast, if_neg hnot]
  have hmag : 0 < F.magValue (F.mag x) := by
    rw [magValue, if_pos h]
    exact mul_pos (Nat.cast_pos.2 hpos) (zpow_pos (by norm_num) _)
  have hhalf : F.magValue (F.mag x) < 1 / 2 := by
    have hpow : (2 : ℚ) ^ (F.emin - F.fw) ≤ 2 ^ (-1 - (F.fw : ℤ)) :=
      zpow_le_zpow_right₀ (by norm_num) (by omega)
    have hcast : (F.mag x : ℚ) < 2 ^ (F.fw : ℤ) := by exact_mod_cast h
    rw [magValue, if_pos h]
    calc (F.mag x : ℚ) * 2 ^ (F.emin - F.fw) ≤ F.mag x * 2 ^ (-1 - (F.fw : ℤ)) :=
          mul_le_mul_of_nonneg_left hpow (Nat.cast_nonneg _)
      _ < 2 ^ (F.fw : ℤ) * 2 ^ (-1 - (F.fw : ℤ)) := mul_lt_mul_of_pos_right hcast (zpow_pos (by norm_num) _)
      _ = 1 / 2 := by
          rw [← zpow_add₀ (by norm_num : (2 : ℚ) ≠ 0), show (F.fw : ℤ) + (-1 - F.fw) = -1 by ring, zpow_neg_one,
            one_div]
  have hiff : F.RoundsAway r x ↔ (r = .up ∧ F.sign x = false ∨ r = .down ∧ F.sign x = true) :=
    ⟨fun hr => hr.2.2, fun hr => ⟨hpos, h, hr⟩⟩
  rw [value, RoundMode.round_fraction r _ hmag hhalf]
  simp only [hiff]
  cases F.sign x with
  | false => cases r with
      | nearest => rfl
      | up => rfl
      | down => rfl
      | zero => rfl
  | true => cases r with
      | nearest => rfl
      | up => rfl
      | down => rfl
      | zero => rfl

theorem value_flush (h : F.mag x < 2 ^ F.fw) : F.value (F.flush true x) = (0 : ℤ) := by
  have hflush : F.flush true x = F.ofMag (F.sign x) 0 := by rw [flush, if_pos ⟨rfl, h⟩]
  have hpos := Nat.two_pow_pos F.fw
  rw [hflush, value_ofMag (Nat.two_pow_pos _), magValue, if_pos hpos, Nat.cast_zero, zero_mul, signed,
    neg_zero, ite_self, Int.cast_zero]

theorem flush_false : F.flush false x = x := by
  rw [flush, if_neg (fun h => Bool.false_ne_true h.1)]

theorem toIntIndefinite_of_round {w : ℕ} (hw : 2 ≤ w) {r : RoundMode} {z : ℤ} (hfin : F.IsFinite x)
    (hround : r.round (F.value x) = z) (hz : -1 ≤ z ∧ z ≤ 1) : F.toIntIndefinite w r x = BitVec.ofInt w z := by
  have hpow : (2 : ℤ) ^ 1 ≤ 2 ^ (w - 1) := pow_le_pow_right₀ (by norm_num) (by omega)
  rw [toIntIndefinite, hround, if_pos ⟨hfin, by omega, by omega⟩]

theorem toIntIndefinite_eq_zero {w : ℕ} (hw : 2 ≤ w) (r : RoundMode) :
    F.toIntIndefinite w r x = 0 ↔ F.IsFinite x ∧ r.round (F.value x) = 0 := by
  have hpow : (2 : ℤ) ^ 1 ≤ 2 ^ (w - 1) := pow_le_pow_right₀ (by norm_num) (by omega)
  rw [toIntIndefinite, ← BitVec.toInt_inj]
  split
  · rename_i h
    rw [BitVec.toInt_ofInt_eq_self (by omega) h.2.1 h.2.2]
    exact ⟨fun heq => ⟨h.1, heq.trans BitVec.toInt_zero⟩, fun heq => heq.2.trans BitVec.toInt_zero.symm⟩
  · rename_i h
    refine iff_of_false (fun heq => ?_) fun hz => h ⟨hz.1, by omega, by omega⟩
    rw [BitVec.toInt_intMin_of_pos (by omega)] at heq
    have hzero : (0 : BitVec w).toInt = 0 := BitVec.toInt_zero
    omega

/-- **When flushing the operand of a conversion does not show.** -/
theorem toIntIndefinite_flush {w : ℕ} (hw : 2 ≤ w) (hemin : F.emin ≤ -1) (r : RoundMode) (on on' : Bool)
    (x : ℕ) :
    F.toIntIndefinite w r (F.flush on x) = F.toIntIndefinite w r (F.flush on' x) ↔
      on = on' ∨ ¬ F.RoundsAway r x := by
  have hpow : (2 : ℤ) ^ 1 ≤ 2 ^ (w - 1) := pow_le_pow_right₀ (by norm_num) (by omega)
  rcases Nat.lt_or_ge (F.mag x) (2 ^ F.fw) with hsmall | hlarge
  · have hinf := two_pow_fw_le_infMag (F := F)
    have hfin : ∀ b : Bool, F.IsFinite (F.flush b x) := by
      intro b
      rcases flush_cases (F := F) b x with heq | ⟨-, hzero⟩
      · rw [heq]
        exact Nat.lt_of_lt_of_le hsmall hinf
      · exact Nat.lt_of_lt_of_le (hzero ▸ Nat.two_pow_pos _) hinf
    have hround := round_subnormal hemin r hsmall
    have hflushed : F.toIntIndefinite w r (F.flush true x) = BitVec.ofInt w 0 := by
      refine toIntIndefinite_of_round hw (hfin true) ?_ (by omega)
      rw [value_flush hsmall, RoundMode.round_intCast]
    have hinj : ∀ z : ℤ, -1 ≤ z ∧ z ≤ 1 → (BitVec.ofInt w z = BitVec.ofInt w 0 ↔ z = 0) := by
      intro z hz
      rw [← BitVec.toInt_inj, BitVec.toInt_ofInt_eq_self (by omega) (by omega) (by omega),
        BitVec.toInt_ofInt_eq_self (by omega) (by omega) (by omega)]
    have hkept : ∀ z : ℤ, -1 ≤ z ∧ z ≤ 1 → r.round (F.value x) = z →
        (F.toIntIndefinite w r (F.flush false x) = BitVec.ofInt w 0 ↔ z = 0) := by
      intro z hz hroundz
      rw [toIntIndefinite_of_round hw (hfin false) (by rw [flush_false]; exact hroundz) hz]
      exact hinj z hz
    have hkept' : F.toIntIndefinite w r (F.flush false x) = BitVec.ofInt w 0 ↔ ¬ F.RoundsAway r x := by
      by_cases haway : F.RoundsAway r x
      · rw [if_pos haway] at hround
        refine iff_of_false ?_ (not_not.2 haway)
        rw [hkept _ (by split <;> omega) hround]
        split <;> omega
      · rw [if_neg haway] at hround
        exact iff_of_true ((hkept 0 (by omega) hround).2 rfl) haway
    cases on with
    | false =>
        cases on' with
        | false => exact iff_of_true rfl (.inl rfl)
        | true =>
            rw [hflushed, hkept']
            exact ⟨.inr, fun h => h.resolve_left Bool.false_ne_true⟩
    | true =>
        cases on' with
        | false =>
            rw [hflushed, eq_comm, hkept']
            exact ⟨.inr, fun h => h.resolve_left (Ne.symm Bool.false_ne_true)⟩
        | true => exact iff_of_true rfl (.inl rfl)
  · have hkeep : ∀ b : Bool, F.flush b x = x := by
      intro b
      rw [flush, if_neg (fun h => absurd h.2 (Nat.not_lt.2 hlarge))]
    rw [hkeep, hkeep]
    exact iff_of_true rfl (.inr fun h => absurd h.2.1 (Nat.not_lt.2 hlarge))

end Format

end PS4Recomp.Library
