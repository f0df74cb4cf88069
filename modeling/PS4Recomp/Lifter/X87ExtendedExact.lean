import PS4Recomp.Lifter.X87Extended

/-!
# What the load of an 80-bit value gives

* `extValue`, `loadMag` — the value of a significand and an exponent, and the magnitude it is rounded to;
* `toNat_halfEven` — the code of the denormal results rounds to nearest even;
* `toNat_numberBits` — the code of the numbers rounds the magnitude, without its sign;
* `loadSpec`, `Mirrored` — the double that is meant, and where the missing sign shows;
* **`loadBits_iff`** — the load gives that double exactly where it does not.

A significand is normalized to `M * 2 ^ x` with `M` from `2 ^ 63` on, and the two cases of the code are
those of `x + 1086`.
-/

namespace PS4Recomp.Lifter

open Library Arm64

/-! ### shifting right to nearest even -/

theorem toNat_halfEven {M : BitVec 64} {n : ℕ} (hM : 2 ^ 63 ≤ M.toNat) (hn : 0 < n) :
    ((halfEven M n).toNat : ℤ) = RoundMode.roundEven ((M.toNat : ℚ) / (2 ^ n : ℕ)) := by
  have hlt := M.isLt
  rw [RoundMode.roundEven_div M.toNat (Nat.two_pow_pos n), Nat.cast_inj, halfEven]
  rcases lt_trichotomy n 64 with hsmall | rfl | hlarge
  · have hsplit : 2 ^ 64 = 2 ^ n * 2 ^ (64 - n) := by
      rw [← pow_add]
      congr 1
      omega
    have hpos := Nat.two_pow_pos n
    have hposk := Nat.two_pow_pos (64 - n)
    have hmod := Nat.mod_lt M.toNat hpos
    obtain ⟨r, hr⟩ : ∃ r, r = M.toNat % 2 ^ n := ⟨_, rfl⟩
    have hquot : M.toNat / 2 ^ n < 2 ^ 63 := by
      have htwo : 2 ^ 1 ≤ 2 ^ n := Nat.pow_le_pow_right (by omega) hn
      have hle := Nat.div_le_div_left htwo (show 0 < 2 ^ 1 by decide) (a := M.toNat)
      omega
    have hout : (M <<< (64 - n)).toNat = r * 2 ^ (64 - n) := by
      rw [BitVec.toNat_shiftLeft, Nat.shiftLeft_eq, hsplit, Nat.mul_mod_mul_right, hr]
    have hshift : (M >>> n).toNat = M.toNat / 2 ^ n := by
      rw [BitVec.toNat_ushiftRight, Nat.shiftRight_eq_div_pow]
    have hinc : (M >>> n + 1).toNat = M.toNat / 2 ^ n + 1 := by
      rw [BitVec.toNat_add, hshift]
      exact Nat.mod_eq_of_lt (by show _ + 1 < _; omega)
    have hbit : (M <<< (64 - n)).getLsbD 63 = false ↔ 2 * r < 2 ^ n := by
      have hmsb : (M <<< (64 - n)).getLsbD 63 = (M <<< (64 - n)).msb := (BitVec.msb_eq_getLsbD_last _).symm
      rw [hmsb, BitVec.msb_eq_false_iff_two_mul_lt, hout, hsplit, ← Nat.mul_assoc]
      exact Nat.mul_lt_mul_right hposk
    have hodd : (M >>> n).getLsbD 0 = false ↔ M.toNat / 2 ^ n % 2 = 0 := by
      rw [BitVec.getLsbD, hshift, Nat.testBit_zero, decide_eq_false_iff_not]
      omega
    rw [if_neg (by omega), if_neg (by omega), ← hr]
    rw [← hr] at hmod
    by_cases hlow : 2 * r < 2 ^ n
    · rw [if_pos (hbit.2 hlow), if_pos hlow, hshift]
    rw [if_neg (fun h => hlow (hbit.1 h)), if_neg hlow]
    have hrest : (M <<< (64 - n)) <<< 1 ≠ 0 ↔ 2 ^ n < 2 * r := by
      have hnat : ((M <<< (64 - n)) <<< 1).toNat = 2 * r % 2 ^ n * 2 ^ (64 - n) := by
        rw [BitVec.toNat_shiftLeft, hout, Nat.shiftLeft_eq, hsplit, ← Nat.mul_mod_mul_right]
        congr 1
        ring
      have hmod2 : 2 * r % 2 ^ n = 2 * r - 2 ^ n := by
        rw [Nat.mod_eq_sub_mod (by omega), Nat.mod_eq_of_lt (by omega)]
      rw [ne_eq, ← BitVec.toNat_inj, hnat, hmod2]
      show ¬ (2 * r - 2 ^ n) * 2 ^ (64 - n) = 0 ↔ _
      rw [Nat.mul_eq_zero]
      omega
    by_cases hhigh : 2 ^ n < 2 * r
    · rw [if_pos (hrest.2 hhigh), if_pos hhigh, hinc]
    rw [if_neg (fun h => hhigh (hrest.1 h)), if_neg hhigh]
    by_cases heven : M.toNat / 2 ^ n % 2 = 0
    · rw [if_pos (hodd.2 heven), hshift, heven, Nat.add_zero]
    · rw [if_neg (fun h => heven (hodd.1 h)), hinc]
      omega
  · have hdiv : M.toNat / 2 ^ 64 = 0 := Nat.div_eq_of_lt hlt
    have hmod : M.toNat % 2 ^ 64 = M.toNat := Nat.mod_eq_of_lt hlt
    have hzero : M <<< 1 = 0 ↔ M.toNat = 2 ^ 63 := by
      rw [← BitVec.toNat_inj, BitVec.toNat_shiftLeft, Nat.shiftLeft_eq]
      show M.toNat * 2 ^ 1 % 2 ^ 64 = 0 ↔ _
      omega
    rw [if_neg (Nat.lt_irrefl 64), if_pos rfl, hdiv, hmod]
    by_cases h : M.toNat = 2 ^ 63
    · rw [if_pos (hzero.2 h), if_neg (by omega), if_neg (by omega)]
      rfl
    · rw [if_neg (fun hz => h (hzero.1 hz)), if_neg (by omega), if_pos (by omega)]
      rfl
  · have hle : 2 ^ 65 ≤ 2 ^ n := Nat.pow_le_pow_right (by omega) hlarge
    rw [if_pos hlarge, Nat.mod_eq_of_lt (by omega), if_pos (by omega), Nat.div_eq_of_lt (by omega)]
    rfl

/-! ### numbers -/

theorem toNat_normalize {m : BitVec 64} (hm : m ≠ 0) :
    (m <<< m.clz.toNat).toNat = m.toNat * 2 ^ m.clz.toNat ∧ 2 ^ 63 ≤ (m <<< m.clz.toNat).toNat := by
  have hne : m.toNat ≠ 0 := fun h => hm (BitVec.eq_of_toNat_eq h)
  have hlog : m.toNat.log2 < 64 := (Nat.log2_lt hne).2 m.isLt
  have hlo : 2 ^ m.toNat.log2 ≤ m.toNat := Nat.log2_self_le hne
  have hhi : m.toNat < 2 ^ (m.toNat.log2 + 1) := Nat.lt_log2_self
  have hsum : m.toNat.log2 + m.clz.toNat = 63 := by
    rw [BitCount.clz_toNat hm]
    omega
  have hge : 2 ^ 63 ≤ m.toNat * 2 ^ m.clz.toNat := by
    rw [← hsum, pow_add]
    exact Nat.mul_le_mul_right _ hlo
  have hlt : m.toNat * 2 ^ m.clz.toNat < 2 ^ 64 := by
    have hpow : 2 ^ 64 = 2 ^ (m.toNat.log2 + 1) * 2 ^ m.clz.toNat := by
      rw [← pow_add]
      congr 1
      omega
    exact lt_of_lt_of_eq (Nat.mul_lt_mul_of_pos_right hhi (Nat.two_pow_pos _)) hpow.symm
  have hnat : (m <<< m.clz.toNat).toNat = m.toNat * 2 ^ m.clz.toNat := by
    rw [BitVec.toNat_shiftLeft, Nat.shiftLeft_eq, Nat.mod_eq_of_lt hlt]
  exact ⟨hnat, hnat ▸ hge⟩

/-- The value of a significand and a biased exponent. -/
def extValue (m : BitVec 64) (e : ℕ) : ℚ := m.toNat * 2 ^ ((e : ℤ) - 16446)

/-- The magnitude of a double for a value: infinity beyond the range of exponents, subnormal numbers to
nearest even, others in the given direction. -/
def loadMag (r : RoundMode) (s : Bool) (q : ℚ) : ℕ :=
  if 2 ^ (1024 : ℤ) ≤ q then Format.double.infMag
  else if q < 2 ^ (-1022 : ℤ) then Format.double.roundMag .nearest s q
  else Format.double.roundMag r s q

theorem two_zpow_le {a b : ℤ} (h : a ≤ b) : (2 : ℚ) ^ a ≤ 2 ^ b := zpow_le_zpow_right₀ (by norm_num) h

/-- A value as a normalized significand, with its place among the powers of two. -/
theorem extValue_normalize {m : BitVec 64} (hm : m ≠ 0) (e : ℕ) {x : ℤ} (hx : x = e - m.clz.toNat - 16446) :
    extValue m e = (m <<< m.clz.toNat).toNat * 2 ^ x ∧ (2 : ℚ) ^ (63 + x) ≤ extValue m e ∧
      extValue m e < 2 ^ (63 + x + 1) := by
  have htwo : (2 : ℚ) ≠ 0 := by norm_num
  obtain ⟨hnat, hge⟩ := toNat_normalize hm
  have hlt := (m <<< m.clz.toNat).isLt
  have hpos : (0 : ℚ) < 2 ^ x := zpow_pos (by norm_num) _
  have heq : extValue m e = (m <<< m.clz.toNat).toNat * 2 ^ x := by
    rw [extValue, hnat, Nat.cast_mul, mul_assoc, Nat.cast_pow, ← zpow_natCast, Nat.cast_ofNat, ← zpow_add₀ htwo]
    congr 2
    omega
  have hlo : ((2 : ℚ) ^ (63 : ℤ)) ≤ (m <<< m.clz.toNat).toNat := by exact_mod_cast hge
  have hhi : ((m <<< m.clz.toNat).toNat : ℚ) < 2 ^ (64 : ℤ) := by exact_mod_cast hlt
  refine ⟨heq, ?_, ?_⟩
  · rw [heq, zpow_add₀ htwo]
    exact mul_le_mul_of_nonneg_right hlo hpos.le
  · rw [heq, show 63 + x + 1 = 64 + x by ring, zpow_add₀ htwo]
    exact mul_lt_mul_of_pos_right hhi hpos

theorem exponent_of_log {q : ℚ} {k : ℤ} (hlo : (2 : ℚ) ^ k ≤ q) (hhi : q < 2 ^ (k + 1)) :
    Format.double.exponent q = max k (-1022) := by
  have hpos : 0 < q := lt_of_lt_of_le (zpow_pos (by norm_num) k) hlo
  rw [Format.exponent, if_neg hpos.ne', Format.log_eq hlo hhi]
  rfl

theorem toNat_ucvtf (c : Fpcr) {M : BitVec 64} (hM : 2 ^ 63 ≤ M.toNat) :
    (ucvtfBits .d c M.toNat).toNat =
      1085 * 2 ^ 52 + (c.mode.round (signed false ((M.toNat : ℚ) / (2 ^ 11 : ℕ)))).natAbs := by
  have hlt := M.isLt
  have hlo : (2 : ℚ) ^ (63 : ℤ) ≤ M.toNat := by exact_mod_cast hM
  have hhi : (M.toNat : ℚ) < 2 ^ (63 + 1 : ℤ) := by exact_mod_cast hlt
  have hexp : Format.double.exponent M.toNat = Format.double.emin + (1085 : ℕ) := exponent_of_log hlo hhi
  have hmag := Format.roundMag_of_exponent c.mode false (Nat.cast_nonneg _) hexp
    (hhi.trans_le (two_zpow_le (by decide)))
  have hbits := Format.roundMag_lt (F := Format.double) c.mode false (M.toNat : ℚ)
  have hnat : (ucvtfBits .d c M.toNat).toNat = Format.double.roundMag c.mode false M.toNat :=
    (BitVec.toNat_ofNat _ _).trans (Nat.mod_eq_of_lt (hbits.trans (by decide)))
  rw [hnat, hmag]
  rfl

section Number

variable {m : BitVec 64} (hm : m ≠ 0) (e : ℕ) {x : ℤ} (hx : x = e - m.clz.toNat - 16446) (r : RoundMode) (s : Bool)
include hm hx

theorem loadMag_eq : loadMag r s (extValue m e) = if 2047 ≤ x + 1086 then Format.double.infMag
    else if 0 < x + 1086 then Format.double.roundMag r s (extValue m e)
    else Format.double.roundMag .nearest s (extValue m e) := by
  obtain ⟨-, hlo, hhi⟩ := extValue_normalize hm e hx
  rw [loadMag]
  by_cases htop : 2047 ≤ x + 1086
  · rw [if_pos htop, if_pos ((two_zpow_le (by omega)).trans hlo)]
  have hbelow : extValue m e < 2 ^ (1024 : ℤ) := hhi.trans_le (two_zpow_le (by omega))
  rw [if_neg htop, if_neg (not_le.2 hbelow)]
  by_cases hnormal : 0 < x + 1086
  · rw [if_pos hnormal, if_neg (not_lt.2 ((two_zpow_le (by omega)).trans hlo))]
  · rw [if_neg hnormal, if_pos (hhi.trans_le (two_zpow_le (by omega)))]

theorem extValue_lt (htop : x + 1086 < 2047) :
    extValue m e < 2 ^ (Format.double.emin + 2 ^ Format.double.ew - 2) := by
  obtain ⟨-, -, hhi⟩ := extValue_normalize hm e hx
  have hbelow : extValue m e < 2 ^ (1024 : ℤ) := hhi.trans_le (two_zpow_le (by omega))
  exact hbelow.trans_le (two_zpow_le (by decide))

theorem roundMag_normal (hlo : 0 < x + 1086) (htop : x + 1086 < 2047) :
    Format.double.roundMag r s (extValue m e) = (x + 1085).toNat * 2 ^ 52 +
      (r.round (signed s (((m <<< m.clz.toNat).toNat : ℚ) / (2 ^ 11 : ℕ)))).natAbs := by
  have htwo : (2 : ℚ) ≠ 0 := by norm_num
  obtain ⟨hq, hle, hhi⟩ := extValue_normalize hm e hx
  obtain ⟨t, ht⟩ := Int.eq_ofNat_of_zero_le (show 0 ≤ x + 1085 by omega)
  have hplace : Format.double.exponent (extValue m e) = Format.double.emin + (t : ℕ) := by
    rw [exponent_of_log hle hhi]
    show max (63 + x) (-1022) = -1022 + (t : ℤ)
    omega
  have hquot : extValue m e / 2 ^ (Format.double.emin - Format.double.fw + (t : ℤ)) =
      ((m <<< m.clz.toNat).toNat : ℚ) / (2 ^ 11 : ℕ) := by
    have hexp11 : Format.double.emin - Format.double.fw + (t : ℤ) = (11 : ℕ) + x := by
      show (-1074 : ℤ) + t = 11 + x
      omega
    rw [hq, hexp11, zpow_add₀ htwo, mul_div_mul_right _ _ (zpow_ne_zero _ htwo), zpow_natCast, Nat.cast_pow,
      Nat.cast_ofNat]
  rw [Format.roundMag_of_exponent r s ((zpow_pos (by norm_num) _).le.trans hle) hplace (extValue_lt hm e hx htop),
    hquot, ht]
  rfl

theorem roundMag_subnormal (hlo : x + 1086 ≤ 0) :
    Format.double.roundMag r s (extValue m e) =
      (r.round (signed s (((m <<< m.clz.toNat).toNat : ℚ) / (2 ^ (-1074 - x).toNat : ℕ)))).natAbs := by
  have htwo : (2 : ℚ) ≠ 0 := by norm_num
  obtain ⟨hq, hle, hhi⟩ := extValue_normalize hm e hx
  obtain ⟨n, hn⟩ := Int.eq_ofNat_of_zero_le (show 0 ≤ -1074 - x by omega)
  have hplace : Format.double.exponent (extValue m e) = Format.double.emin + (0 : ℕ) := by
    rw [exponent_of_log hle hhi]
    show max (63 + x) (-1022) = -1022 + (0 : ℤ)
    omega
  have hquot : extValue m e / 2 ^ (Format.double.emin - Format.double.fw + ((0 : ℕ) : ℤ)) =
      ((m <<< m.clz.toNat).toNat : ℚ) / (2 ^ n : ℕ) := by
    have hexp0 : Format.double.emin - Format.double.fw + ((0 : ℕ) : ℤ) = n + x := by
      show (-1074 : ℤ) + 0 = n + x
      omega
    rw [hq, hexp0, zpow_add₀ htwo, mul_div_mul_right _ _ (zpow_ne_zero _ htwo), zpow_natCast, Nat.cast_pow,
      Nat.cast_ofNat]
  rw [Format.roundMag_of_exponent r s ((zpow_pos (by norm_num) _).le.trans hle) hplace
    (extValue_lt hm e hx (by omega)), hquot, hn, Int.toNat_natCast, Nat.zero_mul, Nat.zero_add]

/-- **The number that is loaded**, without its sign. -/
theorem toNat_numberBits (c : Fpcr) : (numberBits c m e).toNat = loadMag c.mode false (extValue m e) := by
  obtain ⟨-, hM⟩ := toNat_normalize hm
  obtain ⟨M, hMdef⟩ : ∃ M, M = m <<< m.clz.toNat := ⟨_, rfl⟩
  obtain ⟨u, hu⟩ : ∃ u : BitVec 64, u = ucvtfBits .d c M.toNat := ⟨_, rfl⟩
  have hbits : numberBits c m e = if 2047 ≤ x + 1086 then (0x7ff0000000000000 : BitVec 64)
      else if 0 < x + 1086 then u + BitVec.ofInt 64 x <<< 52 else halfEven M (-1074 - x).toNat := by
    rw [hu, hMdef, hx]
    rfl
  rw [hbits, loadMag_eq hm e hx]
  by_cases htop : 2047 ≤ x + 1086
  · rw [if_pos htop, if_pos htop]
    rfl
  rw [if_neg htop, if_neg htop]
  by_cases hnormal : 0 < x + 1086
  · rw [if_pos hnormal, if_pos hnormal]
    have hmag := roundMag_normal hm e hx c.mode false hnormal (by omega)
    have hlt := Format.roundMag_lt (F := Format.double) c.mode false (extValue m e)
    rw [← hMdef] at hM hmag
    rw [hmag] at hlt ⊢
    obtain ⟨n, hn⟩ : ∃ n, n = (c.mode.round (signed false ((M.toNat : ℚ) / (2 ^ 11 : ℕ)))).natAbs := ⟨_, rfl⟩
    obtain ⟨t, ht⟩ := Int.eq_ofNat_of_zero_le (show 0 ≤ x + 1085 by omega)
    have hconv : u.toNat = 1085 * 2 ^ 52 + n := by
      rw [hu, hn]
      exact toNat_ucvtf c hM
    rw [← hn, ht, Int.toNat_natCast] at hlt ⊢
    -- the exponents are added in place
    have hsum : u + BitVec.ofInt 64 x <<< 52 = BitVec.ofNat 64 (t * 2 ^ 52 + n) := by
      have hword : u = BitVec.ofInt 64 (1085 * 2 ^ 52 + n : ℕ) := by
        rw [BitVec.ofInt_natCast, ← hconv, BitVec.ofNat_toNat, BitVec.setWidth_eq]
      have hshift : BitVec.ofInt 64 x <<< 52 = BitVec.ofInt 64 (x * 2 ^ 52) := by
        rw [BitVec.shiftLeft_eq_mul_twoPow, BitVec.ofInt_mul]
        rfl
      rw [hword, hshift, ← BitVec.ofInt_add, ← BitVec.ofInt_natCast]
      congr 1
      push_cast
      omega
    rw [hsum, BitVec.toNat_ofNat]
    exact Nat.mod_eq_of_lt (hlt.trans (by decide))
  · rw [if_neg hnormal, if_neg hnormal, roundMag_subnormal hm e hx .nearest false (by omega), ← hMdef]
    have heven := toNat_halfEven (hMdef ▸ hM) (show 0 < (-1074 - x).toNat by omega)
    exact (Int.natAbs_natCast _).symm.trans (congrArg Int.natAbs heven)

/-- **When the sign is not missed** by rounding the magnitude. -/
theorem loadMag_sign_iff : loadMag r false (extValue m e) = loadMag r s (extValue m e) ↔
    r = .nearest ∨ r = .zero ∨ s = false ∨ x + 1086 ≤ 0 ∨ 2047 ≤ x + 1086 ∨
      2 ^ 11 ∣ (m <<< m.clz.toNat).toNat := by
  obtain ⟨M, hM⟩ : ∃ M, M = (m <<< m.clz.toNat).toNat := ⟨_, rfl⟩
  have hnonneg : ∀ b : ℕ, (0 : ℚ) ≤ (M : ℚ) / b := fun b => div_nonneg (Nat.cast_nonneg _) (Nat.cast_nonneg _)
  rw [loadMag_eq hm e hx, loadMag_eq hm e hx]
  by_cases htop : 2047 ≤ x + 1086
  · rw [if_pos htop, if_pos htop]
    exact iff_of_true rfl (.inr (.inr (.inr (.inr (.inl htop)))))
  rw [if_neg htop, if_neg htop]
  by_cases hnormal : 0 < x + 1086
  · have hdvd : (M : ℚ) / (2 ^ 11 : ℕ) = ⌊(M : ℚ) / (2 ^ 11 : ℕ)⌋ ↔ 2 ^ 11 ∣ M := by
      have hfloor : ⌊(M : ℚ) / (2 ^ 11 : ℕ)⌋ = (M / 2 ^ 11 : ℕ) := Rat.floor_natCast_div_natCast M (2 ^ 11)
      rw [hfloor, div_eq_iff (by norm_num), Int.cast_natCast, Nat.dvd_iff_div_mul_eq]
      constructor
      · intro h
        exact_mod_cast h.symm
      · intro h
        exact_mod_cast h.symm
    have hsign := natAbs_round_signed_iff r s (hnonneg (2 ^ 11))
    rw [if_pos hnormal, if_pos hnormal, roundMag_normal hm e hx r false hnormal (by omega),
      roundMag_normal hm e hx r s hnormal (by omega), ← hM, Nat.add_left_cancel_iff]
    rw [hdvd] at hsign
    refine hsign.trans ⟨?_, ?_⟩
    · rintro (h | h | h | h)
      · exact .inl h
      · exact .inr (.inl h)
      · exact .inr (.inr (.inl h))
      · exact .inr (.inr (.inr (.inr (.inr h))))
    · rintro (h | h | h | h | h | h)
      · exact .inl h
      · exact .inr (.inl h)
      · exact .inr (.inr (.inl h))
      · omega
      · omega
      · exact .inr (.inr (.inr h))
  · rw [if_neg hnormal, if_neg hnormal, roundMag_subnormal hm e hx .nearest false (by omega),
      roundMag_subnormal hm e hx .nearest s (by omega), ← hM]
    exact iff_of_true ((natAbs_round_signed_iff .nearest s (hnonneg _)).2 (.inl rfl))
      (.inr (.inr (.inr (.inl (by omega)))))

end Number

/-! ### the sign -/

theorem signBits_eq (se : BitVec 16) : signBits se = if se.msb then 0x8000000000000000 else 0 := by
  have hmsb : se.toNat.testBit 15 = se.msb := (BitVec.msb_eq_getLsbD_last se).symm
  apply BitVec.eq_of_toNat_eq
  rw [signBits, BitVec.toNat_shiftLeft, BitVec.toNat_and, BitVec.toNat_setWidth,
    Nat.mod_eq_of_lt (lt_trans se.isLt (by decide))]
  show (se.toNat &&& 2 ^ 15) <<< 48 % 2 ^ 64 = _
  rw [Nat.and_two_pow, hmsb]
  cases se.msb with
  | false => rfl
  | true => rfl

theorem toNat_or_signBits {v : BitVec 64} (hv : v.toNat < 2 ^ 63) (se : BitVec 16) :
    (v ||| signBits se).toNat = Format.double.ofMag se.msb v.toNat := by
  rw [signBits_eq, BitVec.toNat_or, Format.ofMag]
  cases se.msb with
  | false =>
      rw [if_neg Bool.false_ne_true, if_neg Bool.false_ne_true, Nat.zero_add]
      exact Nat.or_zero _
  | true =>
      rw [if_pos rfl, if_pos rfl, Nat.or_comm]
      show 2 ^ 63 ||| v.toNat = 2 ^ 63 + v.toNat
      rw [← Nat.mul_one (2 ^ 63), Nat.two_pow_add_eq_or_of_lt hv 1]

/-- The double for a sign, an exponent field and a significand. -/
def loadSpec (r : RoundMode) (s : Bool) (e : ℕ) (m : BitVec 64) : ℕ :=
  if e ≠ 0 ∧ m.msb = false then 0xfff8000000000000
  else if e = 0x7fff then
    if m.toNat = 2 ^ 63 then Format.double.ofMag s Format.double.infMag
    else Format.double.quiet (Format.double.ofMag s (Format.double.infMag + m.toNat % 2 ^ 63 / 2 ^ 11))
  else Format.double.ofMag s (loadMag r s (extValue m (max e 1)))

/-- A negative number that is rounded up or down as a normal double and has more digits. -/
def Mirrored (r : RoundMode) (s : Bool) (e : ℕ) (m : BitVec 64) : Prop :=
  (r = .up ∨ r = .down) ∧ s = true ∧ m.msb = true ∧ 15361 ≤ e ∧ e ≤ 17406 ∧ ¬ 2 ^ 11 ∣ m.toNat

instance (r : RoundMode) (s : Bool) (e : ℕ) (m : BitVec 64) : Decidable (Mirrored r s e m) :=
  inferInstanceAs (Decidable (_ ∧ _))

theorem loadMag_lt (r : RoundMode) (s : Bool) (q : ℚ) : loadMag r s q < 2 ^ 63 := by
  rw [loadMag]
  split
  · decide
  · split
    · exact Format.roundMag_lt _ _ _
    · exact Format.roundMag_lt _ _ _

theorem ofMag_inj {s : Bool} {a b : ℕ} : Format.double.ofMag s a = Format.double.ofMag s b ↔ a = b :=
  Nat.add_left_cancel_iff

/-- The bits of a NaN: the sign, the exponent and the fraction. -/
theorem ofMag_nan (s : Bool) {f : ℕ} (hf : f < 2 ^ 52) : Format.double.ofMag s (Format.double.infMag + f) =
    ((if s then 2 ^ 63 else 0) ||| 2 ^ 52 * 2047) ||| f := by
  have hlt : 2 ^ 52 * 2047 + f < 2 ^ 63 := by omega
  rw [Nat.or_assoc, ← Nat.two_pow_add_eq_or_of_lt hf 2047]
  cases s with
  | false => exact (Nat.zero_add _).trans (Nat.zero_or _).symm
  | true => exact Nat.two_pow_add_eq_or_of_lt hlt 1

/-- A quiet NaN, with the bits of the fraction that a double has. -/
theorem toNat_nan (m : BitVec 64) (se : BitVec 16) :
    (((m <<< 1) >>> 12 ||| 0x7ff8000000000000) ||| signBits se).toNat =
      Format.double.quiet (Format.double.ofMag se.msb (Format.double.infMag + m.toNat % 2 ^ 63 / 2 ^ 11)) := by
  have hfrac : ((m <<< 1) >>> 12).toNat = m.toNat % 2 ^ 63 / 2 ^ 11 := by
    rw [BitVec.toNat_ushiftRight, BitVec.toNat_shiftLeft, Nat.shiftRight_eq_div_pow, Nat.shiftLeft_eq]
    omega
  obtain ⟨f, hf⟩ : ∃ f, f = m.toNat % 2 ^ 63 / 2 ^ 11 := ⟨_, rfl⟩
  have hquiet : (0x7ff8000000000000 : BitVec 64).toNat = 2 ^ 52 * 2047 ||| 2 ^ 51 := rfl
  have hsign : (signBits se).toNat = if se.msb then 2 ^ 63 else 0 := by
    rw [signBits_eq]
    cases se.msb with
    | false => rfl
    | true => rfl
  rw [BitVec.toNat_or, BitVec.toNat_or, hfrac, hquiet, hsign, ← hf, Format.quiet, ofMag_nan _ (by omega)]
  show f ||| (2 ^ 52 * 2047 ||| 2 ^ 51) ||| _ = _ ||| 2 ^ 52 * 2047 ||| f ||| 2 ^ 51
  ac_rfl

/-- **The load is right** exactly where the sign is not missed. -/
theorem loadBits_iff (c : Fpcr) (m : BitVec 64) (se : BitVec 16) :
    (loadBits c m se).toNat = loadSpec c.mode se.msb (se.toNat % 2 ^ 15) m ↔
      ¬ Mirrored c.mode se.msb (se.toNat % 2 ^ 15) m := by
  obtain ⟨e, he⟩ : ∃ e, e = se.toNat % 2 ^ 15 := ⟨_, rfl⟩
  have hlt : e < 2 ^ 15 := he ▸ Nat.mod_lt _ (Nat.two_pow_pos _)
  rw [loadBits, loadSpec, Mirrored, ← he]
  by_cases hspecial : e = 0x7fff
  · have hnot : ¬ ((c.mode = .up ∨ c.mode = .down) ∧ se.msb = true ∧ m.msb = true ∧ 15361 ≤ e ∧ e ≤ 17406 ∧
        ¬ 2 ^ 11 ∣ m.toNat) := by
      intro h
      omega
    refine iff_of_true ?_ hnot
    rw [if_pos hspecial, if_pos hspecial]
    cases hmsb : m.msb with
    | false =>
        rw [if_pos rfl, if_pos ⟨by omega, rfl⟩]
        rfl
    | true =>
        have hge := BitVec.le_toNat_of_msb_true hmsb
        have hzero : m <<< 1 = 0 ↔ m.toNat = 2 ^ 63 := by
          rw [← BitVec.toNat_inj, BitVec.toNat_shiftLeft, Nat.shiftLeft_eq]
          have hm := m.isLt
          show m.toNat * 2 ^ 1 % 2 ^ 64 = 0 ↔ _
          omega
        rw [if_neg Bool.noConfusion, if_neg (show ¬ (e ≠ 0 ∧ true = false) from fun h => Bool.noConfusion h.2)]
        by_cases hinf : m.toNat = 2 ^ 63
        · rw [if_pos (hzero.2 hinf), if_pos hinf]
          exact toNat_or_signBits (by decide) se
        · rw [if_neg (fun h => hinf (hzero.1 h)), if_neg hinf]
          exact toNat_nan m se
  rw [if_neg hspecial, if_neg hspecial]
  have hload : ∀ k : ℕ, m ≠ 0 → ((numberBits c m k ||| signBits se).toNat =
      Format.double.ofMag se.msb (loadMag c.mode se.msb (extValue m k)) ↔
        c.mode = .nearest ∨ c.mode = .zero ∨ se.msb = false ∨ (k : ℤ) - m.clz.toNat - 16446 + 1086 ≤ 0 ∨
          2047 ≤ (k : ℤ) - m.clz.toNat - 16446 + 1086 ∨ 2 ^ 11 ∣ (m <<< m.clz.toNat).toNat) := by
    intro k hm
    have hbits := toNat_numberBits hm k rfl c
    rw [toNat_or_signBits (hbits ▸ loadMag_lt _ _ _), hbits, ofMag_inj]
    exact loadMag_sign_iff hm k rfl _ _
  by_cases hzero : e = 0
  · have hnot : ¬ ((c.mode = .up ∨ c.mode = .down) ∧ se.msb = true ∧ m.msb = true ∧ 15361 ≤ e ∧ e ≤ 17406 ∧
        ¬ 2 ^ 11 ∣ m.toNat) := by
      intro h
      omega
    refine iff_of_true ?_ hnot
    rw [if_pos hzero, if_neg (show ¬ (e ≠ 0 ∧ m.msb = false) from fun h => h.1 hzero), hzero]
    by_cases hm : m = 0
    · have hmag : loadMag c.mode se.msb (extValue m (max 0 1)) = 0 := by
        have hq : extValue m (max 0 1) = Format.double.magValue 0 := by
          rw [extValue, hm]
          norm_num [Format.magValue]
        have hvalue : Format.double.magValue 0 = 0 := by norm_num [Format.magValue]
        rw [loadMag, hq, if_neg (by rw [hvalue, not_le]; exact zpow_pos (by norm_num) _),
          if_pos (by rw [hvalue]; exact zpow_pos (by norm_num) _)]
        exact Format.roundMag_magValue _ _ (by decide)
      rw [if_pos hm, hmag]
      exact (congrArg BitVec.toNat (BitVec.zero_or (x := signBits se))).symm.trans
        (toNat_or_signBits (v := 0) (by decide) se)
    · rw [if_neg hm]
      exact (hload 1 hm).2 (.inr (.inr (.inr (.inl (by omega)))))
  rw [if_neg hzero]
  cases hmsb : m.msb with
  | false =>
      rw [if_pos rfl, if_pos ⟨hzero, rfl⟩]
      exact iff_of_true rfl fun h => Bool.false_ne_true h.2.2.1
  | true =>
      have hge := BitVec.le_toNat_of_msb_true hmsb
      have hm : m ≠ 0 := by
        rintro rfl
        exact absurd hmsb (by decide)
      have hclz : m.clz.toNat = 0 := by
        have hlog : 63 ≤ m.toNat.log2 := (Nat.le_log2 (by omega)).2 hge
        rw [BitCount.clz_toNat hm]
        omega
      have hmax : max e 1 = e := by omega
      have hshift : m <<< 0 = m := BitVec.shiftLeft_zero m
      have hiff := hload e hm
      rw [hclz, hshift] at hiff
      rw [if_neg Bool.noConfusion, if_neg (show ¬ (e ≠ 0 ∧ true = false) from fun h => Bool.noConfusion h.2), hmax,
        hiff]
      constructor
      · rintro h ⟨hmode, hs, -, hlo, hhi, hdvd⟩
        rcases h with h | h | h | h | h | h
        · rw [h] at hmode
          exact hmode.elim (fun h => RoundMode.noConfusion h) fun h => RoundMode.noConfusion h
        · rw [h] at hmode
          exact hmode.elim (fun h => RoundMode.noConfusion h) fun h => RoundMode.noConfusion h
        · exact Bool.noConfusion (h.symm.trans hs)
        · omega
        · omega
        · exact hdvd h
      · intro h
        by_contra hc
        simp only [not_or] at hc
        obtain ⟨h1, h2, h3, h4, h5, h6⟩ := hc
        refine h ⟨?_, Bool.eq_true_of_not_eq_false h3, rfl, by omega, by omega, h6⟩
        cases hmode : c.mode with
        | nearest => exact absurd hmode h1
        | zero => exact absurd hmode h2
        | up => exact .inl rfl
        | down => exact .inr rfl

end PS4Recomp.Lifter
