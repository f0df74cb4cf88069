import PS4Recomp.Lifter.X87ExtendedExact

/-!
# Storing and loading 80-bit values

* `storeFields_zero`, `storeFields_finite`, `storeFields_special` — the fields that are stored, by the kind
  of the double; a finite one keeps its value (`Extended`);
* `loadSpec_store` — the double meant by these fields is the one that was stored;
* `fpuDoubleToF80`, `ldexp`, `fpuF80ToDouble` — the helpers of the C runtime;
* `fpuDoubleToF80_eq`, `fpuF80ToDouble_eq` — they write and read the bytes of the lowerings;
* **`x87M80_exact`** — all of it for runs of the code; `x87LoadM80_mirrored` — a negative value rounded up.
-/

namespace PS4Recomp.Lifter

open Library Arm64

/-! ### the fields of a stored double -/

variable {d : BitVec 64}

/-- A double split into exponent and fraction. -/
structure Split (d e f : BitVec 64) : Prop where
  exp : e.toNat = Format.double.mag d.toNat / 2 ^ 52
  frac : f.toNat = Format.double.mag d.toNat % 2 ^ 52

theorem split_fields (d : BitVec 64) :
    Split d ((d.extractLsb' 52 11).setWidth 64) (d &&& 0xfffffffffffff) := by
  refine ⟨?_, ?_⟩
  · rw [BitVec.toNat_setWidth, BitVec.extractLsb'_toNat, Nat.shiftRight_eq_div_pow]
    show d.toNat / 2 ^ 52 % 2 ^ 11 % 2 ^ 64 = d.toNat % 2 ^ 63 / 2 ^ 52
    omega
  · rw [BitVec.toNat_and]
    show d.toNat &&& (2 ^ 52 - 1) = d.toNat % 2 ^ 63 % 2 ^ 52
    rw [Nat.and_two_pow_sub_one_eq_mod]
    omega

theorem toNat_integerBit {f : BitVec 64} (hf : f.toNat < 2 ^ 52) :
    ((f <<< 11) ||| 0x8000000000000000).toNat = (2 ^ 52 + f.toNat) * 2 ^ 11 := by
  rw [BitVec.toNat_or, BitVec.toNat_shiftLeft, Nat.shiftLeft_eq, Nat.mod_eq_of_lt (by omega), Nat.or_comm]
  show 2 ^ 63 ||| f.toNat * 2 ^ 11 = _
  have hor := Nat.two_pow_add_eq_or_of_lt (show f.toNat * 2 ^ 11 < 2 ^ 63 by omega) 1
  rw [Nat.mul_one] at hor
  rw [← hor]
  omega

/-- The significand and the exponent that are stored for a finite number. -/
structure Extended (d m e : BitVec 64) : Prop where
  pos : 0 < e.toNat
  lt : e.toNat < 0x7fff
  msb : m.msb = true
  value : extValue m e.toNat = Format.double.magValue (Format.double.mag d.toNat)
  digits : ∃ n k : ℕ, n < 2 ^ 53 ∧ m.toNat = n * 2 ^ k
  fits : 15361 ≤ e.toNat → 2 ^ 11 ∣ m.toNat

theorem storeFields_zero (h : Format.double.mag d.toNat = 0) : storeFields d = (0, 0) := by
  obtain ⟨hexp, hfrac⟩ := split_fields d
  rw [h] at hexp hfrac
  have he : (d.extractLsb' 52 11).setWidth 64 = (0 : BitVec 64) := BitVec.eq_of_toNat_eq hexp
  have hf : d &&& 0xfffffffffffff = 0 := BitVec.eq_of_toNat_eq hfrac
  rw [storeFields, he, hf]
  rfl

theorem magValue_small {b : ℕ} (h : b < 2 ^ 52) : Format.double.magValue b = b * 2 ^ (-1074 : ℤ) := if_pos h

theorem magValue_large {b : ℕ} (h : ¬ b < 2 ^ 52) : Format.double.magValue b =
    (2 ^ 52 + b % 2 ^ 52 : ℕ) * 2 ^ (-1074 + ((b / 2 ^ 52 - 1 : ℕ) : ℤ)) := if_neg h

theorem storeFields_finite (hfin : Format.double.IsFinite d.toNat) (hne : Format.double.mag d.toNat ≠ 0) :
    Extended d (storeFields d).1 (storeFields d).2 := by
  have htwo : (2 : ℚ) ≠ 0 := by norm_num
  have hsplit := split_fields d
  obtain ⟨e, he⟩ : ∃ e : BitVec 64, e = (d.extractLsb' 52 11).setWidth 64 := ⟨_, rfl⟩
  obtain ⟨f, hf⟩ : ∃ f, f = d &&& 0xfffffffffffff := ⟨_, rfl⟩
  obtain ⟨b, hb⟩ : ∃ b, b = Format.double.mag d.toNat := ⟨_, rfl⟩
  rw [← he, ← hf] at hsplit
  obtain ⟨hexp, hfrac⟩ := hsplit
  have hblt : b < 2047 * 2 ^ 52 := hb ▸ hfin
  rw [← hb] at hexp hfrac hne
  have hfields : storeFields d = if e = 0 then if f = 0 then (0, 0) else (f <<< f.clz.toNat, 15372 - f.clz)
      else if e = 0x7ff then
        (((if f = 0 then f else f ||| 0x0008000000000000) <<< 11) ||| 0x8000000000000000, 0x7fff)
      else ((f <<< 11) ||| 0x8000000000000000, e + 15360) := by
    rw [he, hf]
    rfl
  rw [hfields]
  by_cases hzero : e = 0
  · have hez : e.toNat = 0 := by rw [hzero]; rfl
    have hf0 : f ≠ 0 := by
      intro h
      rw [h] at hfrac
      have hfz : (0 : BitVec 64).toNat = 0 := rfl
      omega
    rw [if_pos hzero, if_neg hf0]
    obtain ⟨hnat, hge⟩ := toNat_normalize hf0
    have hlt : f.toNat < 2 ^ 52 := by omega
    have hlog : f.toNat.log2 < 52 := (Nat.log2_lt (fun h => hf0 (BitVec.eq_of_toNat_eq h))).2 hlt
    have hclz : f.clz.toNat = 63 - f.toNat.log2 := BitCount.clz_toNat hf0
    have hsub : (15372 - f.clz).toNat = 15372 - f.clz.toNat :=
      BitVec.toNat_sub_of_le (by rw [BitVec.le_def]; show f.clz.toNat ≤ 15372; omega)
    show Extended d (f <<< f.clz.toNat) (15372 - f.clz)
    refine ⟨by omega, by omega, BitVec.msb_eq_true_iff_two_mul_ge.2 (by omega), ?_,
      ⟨f.toNat, f.clz.toNat, by omega, hnat⟩, fun h => by omega⟩
    have hbf : f.toNat = b := by omega
    have hplace : (f.clz.toNat : ℤ) + (((15372 - f.clz.toNat : ℕ) : ℤ) - 16446) = -1074 := by omega
    rw [extValue, hnat, hsub, ← hb, magValue_small (by omega), hbf, Nat.cast_mul, mul_assoc, Nat.cast_pow,
      ← zpow_natCast, Nat.cast_ofNat, ← zpow_add₀ htwo, hplace]
  · have hez : e.toNat ≠ 0 := fun h => hzero (BitVec.eq_of_toNat_eq h)
    have hmax : e ≠ 0x7ff := by
      intro h
      have hnat : e.toNat = 2047 := by rw [h]; rfl
      omega
    rw [if_neg hzero, if_neg hmax]
    have hnat := toNat_integerBit (show f.toNat < 2 ^ 52 by omega)
    have hadd : (e + 15360).toNat = e.toNat + 15360 := by
      rw [BitVec.toNat_add]
      exact Nat.mod_eq_of_lt (by show e.toNat + 15360 < 2 ^ 64; omega)
    show Extended d ((f <<< 11) ||| 0x8000000000000000) (e + 15360)
    refine ⟨by omega, by omega, BitVec.msb_eq_true_iff_two_mul_ge.2 (by omega), ?_,
      ⟨2 ^ 52 + f.toNat, 11, by omega, hnat⟩, fun _ => hnat ▸ Nat.dvd_mul_left _ _⟩
    have hplace : ((11 : ℕ) : ℤ) + (((e.toNat + 15360 : ℕ) : ℤ) - 16446) = -1074 + ((b / 2 ^ 52 - 1 : ℕ) : ℤ) := by
      omega
    rw [extValue, hnat, hadd, ← hb, magValue_large (by omega), hfrac, Nat.cast_mul, mul_assoc, Nat.cast_pow,
      Nat.cast_ofNat, ← zpow_natCast (2 : ℚ) 11, ← zpow_add₀ htwo, hplace]

theorem storeFields_special (h : Format.double.infMag ≤ Format.double.mag d.toNat) :
    (storeFields d).2 = 0x7fff ∧ (storeFields d).1.toNat = 2 ^ 63 +
      (if Format.double.mag d.toNat = Format.double.infMag then 0
        else Format.double.mag d.toNat % 2 ^ 52 ||| 2 ^ 51) * 2 ^ 11 := by
  have hsplit := split_fields d
  obtain ⟨e, he⟩ : ∃ e : BitVec 64, e = (d.extractLsb' 52 11).setWidth 64 := ⟨_, rfl⟩
  obtain ⟨f, hf⟩ : ∃ f, f = d &&& 0xfffffffffffff := ⟨_, rfl⟩
  obtain ⟨b, hb⟩ : ∃ b, b = Format.double.mag d.toNat := ⟨_, rfl⟩
  rw [← he, ← hf] at hsplit
  obtain ⟨hexp, hfrac⟩ := hsplit
  have hlt : Format.double.mag d.toNat < 2 ^ 63 := Format.mag_lt d.toNat
  rw [← hb] at h hexp hfrac hlt ⊢
  have hge : 2047 * 2 ^ 52 ≤ b := h
  have hmax : e = 0x7ff := BitVec.eq_of_toNat_eq (by show e.toNat = 2047; omega)
  have hfields : storeFields d =
      (((if f = 0 then f else f ||| 0x0008000000000000) <<< 11) ||| 0x8000000000000000, 0x7fff) := by
    have hne : (0x7ff : BitVec 64) ≠ 0 := by decide
    rw [storeFields, ← he, ← hf, hmax, if_neg hne, if_pos rfl]
  have hzero : f = 0 ↔ b = Format.double.infMag := by
    rw [← BitVec.toNat_inj, hfrac]
    show b % 2 ^ 52 = 0 ↔ b = 2047 * 2 ^ 52
    omega
  rw [hfields]
  refine ⟨rfl, ?_⟩
  by_cases hf0 : f = 0
  · rw [if_pos hf0, if_pos (hzero.1 hf0), hf0]
    rfl
  · have hor : (f ||| 0x0008000000000000).toNat = b % 2 ^ 52 ||| 2 ^ 51 := by
      rw [BitVec.toNat_or, hfrac]
      rfl
    have hbound : b % 2 ^ 52 ||| 2 ^ 51 < 2 ^ 52 := Nat.or_lt_two_pow (Nat.mod_lt _ (by decide)) (by decide)
    rw [if_neg hf0, if_neg (fun hinf => hf0 (hzero.2 hinf)), toNat_integerBit (hor ▸ hbound), hor]
    omega

theorem storeFields_le (d : BitVec 64) : (storeFields d).2.toNat ≤ 0x7fff := by
  rcases Nat.lt_or_ge (Format.double.mag d.toNat) Format.double.infMag with hfin | hspecial
  · by_cases hzero : Format.double.mag d.toNat = 0
    · rw [storeFields_zero hzero]
      exact Nat.zero_le _
    · exact (storeFields_finite hfin hzero).lt.le
  · rw [(storeFields_special hspecial).1]
    decide

theorem storeWord {e : BitVec 64} (he : e.toNat < 2 ^ 15) (d : BitVec 64) :
    ((e ||| (d >>> 63) <<< 15).setWidth 16).msb = Format.double.sign d.toNat ∧
      ((e ||| (d >>> 63) <<< 15).setWidth 16).toNat % 2 ^ 15 = e.toNat := by
  have hd := d.isLt
  obtain ⟨k, hk⟩ : ∃ k, k = d.toNat / 2 ^ 63 := ⟨_, rfl⟩
  have hnat : ((e ||| (d >>> 63) <<< 15).setWidth 16).toNat = 2 ^ 15 * k + e.toNat := by
    rw [BitVec.toNat_setWidth, BitVec.toNat_or, BitVec.toNat_shiftLeft, BitVec.toNat_ushiftRight,
      Nat.shiftRight_eq_div_pow, Nat.shiftLeft_eq, ← hk, Nat.mod_eq_of_lt (by omega : k * 2 ^ 15 < 2 ^ 64), Nat.or_comm,
      Nat.mul_comm, ← Nat.two_pow_add_eq_or_of_lt he]
    exact Nat.mod_eq_of_lt (by omega)
  refine ⟨?_, by omega⟩
  rw [BitVec.msb_eq_decide, hnat, Format.sign]
  show decide (2 ^ 15 ≤ 2 ^ 15 * k + e.toNat) = d.toNat.testBit 63
  rw [Nat.testBit_eq_decide_div_mod_eq, ← hk]
  congr 1
  rw [eq_iff_iff]
  omega

/-! ### reading back -/

/-- A double with a NaN made quiet. -/
def quieted (d : BitVec 64) : ℕ := if Format.double.IsNan d.toNat then Format.double.quiet d.toNat else d.toNat

theorem ofMag_parts (d : BitVec 64) :
    Format.double.ofMag (Format.double.sign d.toNat) (Format.double.mag d.toNat) = d.toNat :=
  Format.ofMag_mag d.isLt

theorem loadMag_magValue (r : RoundMode) (s : Bool) {b : ℕ} (hb : b < Format.double.infMag) :
    loadMag r s (Format.double.magValue b) = b := by
  have hlt : Format.double.magValue b < 2 ^ (1024 : ℤ) :=
    (Format.magValue_lt hb).trans_le (two_zpow_le (by decide))
  rw [loadMag, if_neg (not_le.2 hlt), Format.roundMag_magValue _ _ hb, Format.roundMag_magValue _ _ hb, ite_self]

/-- **What was stored is loaded**, in every direction of rounding. -/
theorem loadSpec_store (r : RoundMode) (d : BitVec 64) :
    loadSpec r (Format.double.sign d.toNat) (storeFields d).2.toNat (storeFields d).1 = quieted d ∧
      ¬ Mirrored r (Format.double.sign d.toNat) (storeFields d).2.toNat (storeFields d).1 := by
  have hparts := ofMag_parts d
  rw [loadSpec, Mirrored, quieted]
  rcases Nat.lt_or_ge (Format.double.mag d.toNat) Format.double.infMag with hfin | hspecial
  · rw [if_neg (show ¬ Format.double.IsNan d.toNat from Nat.not_lt.2 hfin.le)]
    by_cases hzero : Format.double.mag d.toNat = 0
    · have hq : extValue 0 (max 0 1) = Format.double.magValue 0 := by norm_num [extValue, Format.magValue]
      have hexp : ((storeFields d).2.toNat : ℕ) = 0 := by
        rw [storeFields_zero hzero]
        rfl
      have hm : (storeFields d).1 = 0 := by rw [storeFields_zero hzero]
      rw [hexp, hm, if_neg (fun h => h.1 rfl), if_neg (by decide), hq, loadMag_magValue r _ (by decide), ← hzero]
      exact ⟨hparts, fun h => by omega⟩
    · obtain ⟨hpos, hlt, htop, hvalue, -, hfits⟩ := storeFields_finite hfin hzero
      have hmax : max (storeFields d).2.toNat 1 = (storeFields d).2.toNat := by omega
      rw [htop, if_neg (fun h => Bool.noConfusion h.2), if_neg (by omega), hmax, hvalue, loadMag_magValue r _ hfin]
      exact ⟨hparts, fun h => h.2.2.2.2.2 (hfits h.2.2.2.1)⟩
  · obtain ⟨he, hm⟩ := storeFields_special hspecial
    have hexp : (storeFields d).2.toNat = 0x7fff := congrArg BitVec.toNat he
    have hlt : Format.double.mag d.toNat < 2 ^ 63 := Format.mag_lt d.toNat
    have hge : 2047 * 2 ^ 52 ≤ Format.double.mag d.toNat := hspecial
    have htop : (storeFields d).1.msb = true := BitVec.msb_eq_true_iff_two_mul_ge.2 (by omega)
    refine ⟨?_, fun h => by omega⟩
    rw [hexp, htop, if_neg (fun h => Bool.noConfusion h.2), if_pos rfl]
    by_cases hinf : Format.double.mag d.toNat = Format.double.infMag
    · rw [if_pos hinf] at hm
      have hnan : ¬ Format.double.IsNan d.toNat := Nat.not_lt.2 hinf.le
      rw [if_pos (by omega), if_neg hnan, ← hinf]
      exact hparts
    · rw [if_neg hinf] at hm
      have hbound : Format.double.mag d.toNat % 2 ^ 52 ||| 2 ^ 51 < 2 ^ 52 :=
        Nat.or_lt_two_pow (Nat.mod_lt _ (by decide)) (by decide)
      have hpos : 2 ^ 51 ≤ Format.double.mag d.toNat % 2 ^ 52 ||| 2 ^ 51 := Nat.right_le_or
      have hfrac : (storeFields d).1.toNat % 2 ^ 63 / 2 ^ 11 = Format.double.mag d.toNat % 2 ^ 52 ||| 2 ^ 51 := by
        omega
      have hnan : Format.double.IsNan d.toNat := Nat.lt_of_le_of_ne hspecial (Ne.symm hinf)
      have hsum : Format.double.mag d.toNat = Format.double.infMag + Format.double.mag d.toNat % 2 ^ 52 := by
        show _ = 2047 * 2 ^ 52 + _
        omega
      have hd := hparts
      rw [hsum, ofMag_nan _ (Nat.mod_lt _ (by decide))] at hd
      rw [if_neg (by omega), if_pos hnan, hfrac, ofMag_nan _ hbound, Format.quiet, Format.quiet]
      show _ ||| (_ ||| 2 ^ 51) ||| 2 ^ 51 = _ ||| 2 ^ 51
      rw [← Nat.or_assoc, Nat.or_assoc _ (2 ^ 51), Nat.or_self]
      exact congrArg (· ||| 2 ^ 51) hd

/-! ### the C helpers -/

/-- `fpu_double_to_f80`: a double to the ten bytes at `p`. -/
def fpuDoubleToF80 (mem : ByteMem) (v p : BitVec 64) : ByteMem :=
  let sign : BitVec 16 := if v >>> 63 ≠ 0 then 0x8000 else 0
  let e : BitVec 32 := ((v >>> 52) &&& 0x7ff).setWidth 32
  let frac := v &&& 0x000fffffffffffff
  let fields : BitVec 64 × BitVec 16 :=
    if e = 0x7ff then ((0x8000000000000000 : BitVec 64) ||| (frac <<< 11), 0x7fff)
    else if e = 0 then
      if frac = 0 then (0, 0)
      else (frac <<< frac.clz.toNat, (16383 + 63 - 1074 - frac.clz.setWidth 32).setWidth 16)
    else ((0x8000000000000000 : BitVec 64) ||| (frac <<< 11), (e - 1023 + 16383).setWidth 16)
  (mem.store p fields.1).store (p + 8) (sign ||| fields.2)

/-- `ldexp`: a number times a power of two. -/
def ldexp (r : RoundMode) (x : BitVec 64) (e : ℤ) : BitVec 64 :=
  if Format.double.IsFinite x.toNat then
    BitVec.ofNat 64 (Format.double.ofMag (Format.double.sign x.toNat) (Format.double.roundMag r
      (Format.double.sign x.toNat) (Format.double.magValue (Format.double.mag x.toNat) * 2 ^ e)))
  else x

/-- `fpu_f80_to_double`: the ten bytes at `p` as a double, in the host's direction of rounding. -/
def fpuF80ToDouble (r : RoundMode) (mem : ByteMem) (p : BitVec 64) : BitVec 64 :=
  let mant := mem.load 64 p
  let se := mem.load 16 (p + 8)
  let exp := se &&& 0x7fff
  let v : BitVec 64 :=
    if exp = 0x7fff then
      if mant <<< 1 = 0 then 0x7ff0000000000000
      else (0x7ff8000000000000 : BitVec 64) ||| ((mant >>> 11) &&& 0x000fffffffffffff)
    else if mant = 0 then 0
    else ldexp r (BitVec.ofNat 64 (Format.double.roundMag r false mant.toNat))
      ((if exp = 0 then 1 else exp.toNat : ℤ) - 16383 - 63)
  if se &&& 0x8000 ≠ 0 then v ^^^ 0x8000000000000000 else v

/-- **The helper writes the bytes of the lowering.** -/
theorem fpuDoubleToF80_eq {v : BitVec 64} (h : ¬ Format.double.IsNan v.toNat) (mem : ByteMem) (p : BitVec 64) :
    fpuDoubleToF80 mem v p = (mem.store p (storeBits v).1).store (p + 8) ((storeBits v).2.setWidth 16) := by
  have hv := v.isLt
  obtain ⟨e, he⟩ : ∃ e : BitVec 64, e = (v.extractLsb' 52 11).setWidth 64 := ⟨_, rfl⟩
  obtain ⟨f, hf⟩ : ∃ f, f = v &&& 0xfffffffffffff := ⟨_, rfl⟩
  obtain ⟨hexp, hfrac⟩ := split_fields v
  rw [← he] at hexp
  rw [← hf] at hfrac
  have hmag : Format.double.mag v.toNat ≤ 2047 * 2 ^ 52 := Nat.not_lt.1 h
  have helt : e.toNat < 2 ^ 11 := by omega
  have hfield : ((v >>> 52) &&& 0x7ff).setWidth 32 = e.setWidth 32 := by
    congr 1
    apply BitVec.eq_of_toNat_eq
    rw [BitVec.toNat_and, BitVec.toNat_ushiftRight, Nat.shiftRight_eq_div_pow, hexp]
    show v.toNat / 2 ^ 52 &&& (2 ^ 11 - 1) = v.toNat % 2 ^ 63 / 2 ^ 52
    rw [Nat.and_two_pow_sub_one_eq_mod]
    omega
  have hword : ∀ k : ℕ, k < 2 ^ 11 → (e.setWidth 32 = BitVec.ofNat 32 k ↔ e = BitVec.ofNat 64 k) := by
    intro k hk
    rw [← BitVec.toNat_inj, ← BitVec.toNat_inj, BitVec.toNat_setWidth, BitVec.toNat_ofNat, BitVec.toNat_ofNat]
    omega
  have hword0 : e.setWidth 32 = (0 : BitVec 32) ↔ e = 0 := hword 0 (by decide)
  have hwordMax : e.setWidth 32 = (0x7ff : BitVec 32) ↔ e = 0x7ff := hword 0x7ff (by decide)
  have hsign : ((v >>> 63) <<< 15).setWidth 16 = (if v >>> 63 ≠ 0 then 0x8000 else 0 : BitVec 16) := by
    have hnat : (v >>> 63).toNat = v.toNat / 2 ^ 63 := by
      rw [BitVec.toNat_ushiftRight, Nat.shiftRight_eq_div_pow]
    obtain hzero | hone : (v >>> 63) = 0 ∨ (v >>> 63) = 1 := by
      rw [← BitVec.toNat_inj, ← BitVec.toNat_inj, hnat]
      show _ = 0 ∨ _ = 1
      omega
    · rw [hzero]
      rfl
    · rw [hone]
      rfl
  obtain ⟨x, hx⟩ : ∃ x : BitVec 64 × BitVec 16, x =
      if e.setWidth 32 = 0x7ff then ((0x8000000000000000 : BitVec 64) ||| (f <<< 11), 0x7fff)
      else if e.setWidth 32 = 0 then
        if f = 0 then (0, 0) else (f <<< f.clz.toNat, (16383 + 63 - 1074 - f.clz.setWidth 32).setWidth 16)
      else ((0x8000000000000000 : BitVec 64) ||| (f <<< 11), (e.setWidth 32 - 1023 + 16383).setWidth 16) := ⟨_, rfl⟩
  have hhelper : fpuDoubleToF80 mem v p =
      (mem.store p x.1).store (p + 8) ((if v >>> 63 ≠ 0 then 0x8000 else 0) ||| x.2) := by
    rw [hx, hf, ← hfield]
    rfl
  have hfields : x = ((storeFields v).1, (storeFields v).2.setWidth 16) := by
    rw [hx, storeFields, ← he, ← hf]
    by_cases hzero : e = 0
    · have hmax : e ≠ 0x7ff := by
        rw [hzero]
        decide
      rw [if_neg (fun h => hmax (hwordMax.1 h)), if_pos (hword0.2 hzero), if_pos hzero]
      by_cases hf0 : f = 0
      · rw [if_pos hf0, if_pos hf0]
        rfl
      · have hlt : f.clz.toNat < 64 := by
          rw [BitCount.clz_toNat hf0]
          omega
        rw [if_neg hf0, if_neg hf0]
        refine Prod.ext rfl (BitVec.eq_of_toNat_eq ?_)
        show ((16383 + 63 - 1074 - f.clz.setWidth 32 : BitVec 32).setWidth 16).toNat = ((15372 - f.clz).setWidth 16).toNat
        rw [BitVec.toNat_setWidth, BitVec.toNat_setWidth, BitVec.toNat_sub, BitVec.toNat_sub, BitVec.toNat_setWidth]
        show (2 ^ 32 - f.clz.toNat % 2 ^ 32 + 15372) % 2 ^ 32 % 2 ^ 16 = (2 ^ 64 - f.clz.toNat + 15372) % 2 ^ 64 % 2 ^ 16
        omega
    rw [if_neg (fun h => hzero (hword0.1 h)), if_neg hzero]
    by_cases hmax : e = 0x7ff
    · have hf0 : f = 0 := by
        have hnat : e.toNat = 2047 := by rw [hmax]; rfl
        exact BitVec.eq_of_toNat_eq (by show f.toNat = 0; omega)
      rw [if_pos (hwordMax.2 hmax), if_pos hmax, if_pos hf0, hf0]
      rfl
    · rw [if_neg (fun h => hmax (hwordMax.1 h)), if_neg hmax, BitVec.or_comm]
      refine Prod.ext rfl (BitVec.eq_of_toNat_eq ?_)
      show ((e.setWidth 32 - 1023 + 16383 : BitVec 32).setWidth 16).toNat = ((e + 15360).setWidth 16).toNat
      rw [BitVec.toNat_setWidth, BitVec.toNat_setWidth, BitVec.toNat_add, BitVec.toNat_sub, BitVec.toNat_setWidth,
        BitVec.toNat_add]
      show ((2 ^ 32 - 1023 + e.toNat % 2 ^ 32) % 2 ^ 32 + 16383) % 2 ^ 32 % 2 ^ 16 = (e.toNat + 15360) % 2 ^ 64 % 2 ^ 16
      omega
  rw [hhelper, hfields, ← hsign, ← BitVec.setWidth_or, BitVec.or_comm]
  rfl

theorem toNat_flip {v : BitVec 64} (hv : v.toNat < 2 ^ 63) (s : Bool) :
    (if s then v ^^^ 0x8000000000000000 else v).toNat = Format.double.ofMag s v.toNat := by
  cases s with
  | false => exact (Nat.zero_add _).symm
  | true =>
      have hor : v.toNat ^^^ 2 ^ 63 = 2 ^ 63 ||| v.toNat := by
        apply Nat.eq_of_testBit_eq
        intro i
        rw [Nat.testBit_xor, Nat.testBit_or, Nat.testBit_two_pow, Bool.or_comm]
        by_cases hi : 63 = i
        · rw [← hi, Nat.testBit_lt_two_pow hv]
          rfl
        · rw [decide_eq_false hi, Bool.xor_false, Bool.or_false]
      rw [if_pos rfl, BitVec.toNat_xor]
      exact hor.trans (Nat.two_pow_add_eq_or_of_lt hv 1).symm

/-- A significand of few digits is converted exactly, and scaled to a value that a double has. -/
theorem toNat_ldexp (r : RoundMode) {m : BitVec 64} {e b : ℕ} (hm : ∃ n k : ℕ, n < 2 ^ 53 ∧ m.toNat = n * 2 ^ k)
    (hb : b < Format.double.infMag) (hvalue : extValue m e = Format.double.magValue b) :
    (ldexp r (BitVec.ofNat 64 (Format.double.roundMag r false m.toNat)) ((e : ℤ) - 16383 - 63)).toNat = b := by
  obtain ⟨n, k, hn, hnat⟩ := hm
  have hcast : (m.toNat : ℚ) = n * 2 ^ (Format.double.emin - Format.double.fw + ((k + 1074 : ℕ) : ℤ)) := by
    have hplace : Format.double.emin - Format.double.fw + ((k + 1074 : ℕ) : ℤ) = k := by
      show (-1074 : ℤ) + ((k + 1074 : ℕ) : ℤ) = k
      omega
    rw [hplace, hnat, zpow_natCast]
    push_cast
    rfl
  have hlt : (m.toNat : ℚ) < 2 ^ (64 : ℤ) := by exact_mod_cast m.isLt
  obtain ⟨a, ha, havalue⟩ := Format.exists_mag (F := Format.double) hn
    (hcast ▸ hlt.trans_le (two_zpow_le (by decide)))
  have hround : Format.double.roundMag r false m.toNat = a := by
    rw [hcast, ← havalue]
    exact Format.roundMag_magValue r false ha
  have halt : a < 2 ^ 63 := ha.trans (by decide)
  have hword : (BitVec.ofNat 64 a).toNat = Format.double.ofMag false a := by
    rw [BitVec.toNat_ofNat, Format.ofMag, if_neg Bool.false_ne_true, Nat.zero_add]
    exact Nat.mod_eq_of_lt (by omega)
  have hfin : Format.double.IsFinite (Format.double.ofMag false a) := by
    rw [Format.IsFinite, Format.mag_ofMag halt]
    exact ha
  have hscaled : Format.double.magValue a * 2 ^ ((e : ℤ) - 16383 - 63) = Format.double.magValue b := by
    rw [havalue, ← hcast, ← hvalue, extValue]
    congr 2
    ring
  rw [ldexp, hround, hword, if_pos hfin, Format.mag_ofMag halt, Format.sign_ofMag halt, hscaled,
    Format.roundMag_magValue r false hb, BitVec.toNat_ofNat, Format.ofMag, if_neg Bool.false_ne_true, Nat.zero_add]
  have hblt : b < 2 ^ 63 := hb.trans (by decide)
  exact Nat.mod_eq_of_lt (by omega)

/-- **The helper reads back** what the lowering wrote. -/
theorem fpuF80ToDouble_eq (r : RoundMode) {d : BitVec 64} (h : ¬ Format.double.IsNan d.toNat) {mem : ByteMem}
    {p : BitVec 64} (hm : mem.load 64 p = (storeBits d).1)
    (hse : mem.load 16 (p + 8) = (storeBits d).2.setWidth 16) : fpuF80ToDouble r mem p = d := by
  have hsf := storeFields_le d
  obtain ⟨hmsb, hexp⟩ := storeWord (show (storeFields d).2.toNat < 2 ^ 15 by omega) d
  obtain ⟨w, hw⟩ : ∃ w, w = ((storeFields d).2 ||| (d >>> 63) <<< 15).setWidth 16 := ⟨_, rfl⟩
  have hse' : mem.load 16 (p + 8) = w := hse.trans hw.symm
  rw [← hw] at hmsb hexp
  -- the two masks
  have hlow : (w &&& 0x7fff).toNat = (storeFields d).2.toNat := by
    rw [BitVec.toNat_and, ← hexp]
    exact Nat.and_two_pow_sub_one_eq_mod w.toNat 15
  have hhigh : w &&& 0x8000 ≠ 0 ↔ Format.double.sign d.toNat = true := by
    have hbit : w.toNat.testBit 15 = w.msb := (BitVec.msb_eq_getLsbD_last w).symm
    rw [← hmsb, ne_eq, ← BitVec.toNat_inj, BitVec.toNat_and]
    show ¬ w.toNat &&& 2 ^ 15 = 0 ↔ _
    rw [Nat.and_two_pow, hbit]
    cases w.msb with
    | false => decide
    | true => decide
  obtain ⟨v, hv⟩ : ∃ v : BitVec 64, v =
      if w &&& 0x7fff = 0x7fff then
        if (storeFields d).1 <<< 1 = 0 then (0x7ff0000000000000 : BitVec 64)
        else (0x7ff8000000000000 : BitVec 64) ||| (((storeFields d).1 >>> 11) &&& 0x000fffffffffffff)
      else if (storeFields d).1 = 0 then (0 : BitVec 64)
      else ldexp r (BitVec.ofNat 64 (Format.double.roundMag r false (storeFields d).1.toNat))
        ((if w &&& 0x7fff = 0 then 1 else (w &&& 0x7fff).toNat : ℤ) - 16383 - 63) := ⟨_, rfl⟩
  have hrun : fpuF80ToDouble r mem p = if Format.double.sign d.toNat then v ^^^ 0x8000000000000000 else v := by
    have hm' : mem.load 64 p = (storeFields d).1 := hm
    rw [hv, ← hse', ← hm']
    unfold fpuF80ToDouble
    rw [hse', if_congr hhigh rfl rfl]
  have hmag : v.toNat = Format.double.mag d.toNat := by
    rcases Nat.lt_or_ge (Format.double.mag d.toNat) Format.double.infMag with hfin | hspecial
    · by_cases hzero : Format.double.mag d.toNat = 0
      · have hw0 : w &&& 0x7fff = 0 := BitVec.eq_of_toNat_eq (by rw [hlow, storeFields_zero hzero]; rfl)
        rw [hv, hw0, storeFields_zero hzero, hzero]
        rfl
      · obtain ⟨hpos, hlt, htop, hvalue, hdigits, -⟩ := storeFields_finite hfin hzero
        have hwmax : w &&& 0x7fff ≠ 0x7fff := by
          intro hc
          rw [hc] at hlow
          have hnat : (0x7fff : BitVec 16).toNat = 0x7fff := rfl
          omega
        have hw0 : w &&& 0x7fff ≠ 0 := by
          intro hc
          rw [hc] at hlow
          have hnat : (0 : BitVec 16).toNat = 0 := rfl
          omega
        have hm0 : (storeFields d).1 ≠ 0 := by
          intro hc
          rw [hc] at htop
          exact absurd htop (by decide)
        rw [hv, if_neg hwmax, if_neg hm0, if_neg hw0, hlow]
        exact toNat_ldexp r hdigits hfin hvalue
    · have hinf : Format.double.mag d.toNat = Format.double.infMag := le_antisymm (Nat.not_lt.1 h) hspecial
      obtain ⟨he, hmant⟩ := storeFields_special hspecial
      rw [if_pos hinf] at hmant
      have hwmax : w &&& 0x7fff = 0x7fff := BitVec.eq_of_toNat_eq (by rw [hlow, he]; rfl)
      have hshift : (storeFields d).1 <<< 1 = 0 := by
        apply BitVec.eq_of_toNat_eq
        rw [BitVec.toNat_shiftLeft, hmant]
        rfl
      rw [hv, if_pos hwmax, if_pos hshift, hinf]
      rfl
  have hlt : v.toNat < 2 ^ 63 := hmag ▸ Format.mag_lt d.toNat
  apply BitVec.eq_of_toNat_eq
  rw [hrun, toNat_flip hlt, hmag]
  exact ofMag_parts d

/-! ### the claims about runs -/

theorem load_stored (mem : ByteMem) (a m : BitVec 64) (se : BitVec 16) :
    ((mem.store a m).store (a + 8) se).load 64 a = m ∧ ((mem.store a m).store (a + 8) se).load 16 (a + 8) = se := by
  refine ⟨?_, ByteMem.load_store_self _ (k := 2) (by decide) (by decide) _ _⟩
  have hbelow := ByteMem.load_store_below (mem.store a m) (n := 64) (k := 8) (j := 2) (by decide) (by decide) (by decide)
    a se
  exact hbelow.trans (ByteMem.load_store_self _ (k := 8) (by decide) (by decide) _ _)

theorem add_zero_offset (a : BitVec 64) : a + 0 = a := BitVec.add_zero a

/-- **The 80-bit values.**  What the store writes for a double is loaded as this double, in every direction;
a load gives the double that is meant exactly where the sign of a rounded normal number is not missed; and
the helpers write and read the same bytes. -/
theorem x87M80_exact (s : FpState) (r : RoundMode) (mem : ByteMem) (p d : BitVec 64) :
    (fpMachine.Leads x87StoreM80 0 s fun t => t.core.flags = s.core.flags ∧
      (¬ Format.double.IsNan (s.getF .d 28).toNat →
        t.core.mem = fpuDoubleToF80 s.core.mem (s.getF .d 28) (s.core.get 1)) ∧
      ∀ u : FpState, u.core.mem = t.core.mem → u.core.get 1 = s.core.get 1 →
        fpMachine.Leads x87LoadM80 0 u fun w =>
          (w.getF .d 28).toNat = quieted (s.getF .d 28) ∧ w.core.flags = u.core.flags) ∧
    (∃ v : BitVec 64, fpMachine.Leads x87LoadM80 0 s (Gives v s.core.flags) ∧
      let m := s.core.mem.load 64 (s.core.get 1)
      let se := s.core.mem.load 16 (s.core.get 1 + 8)
      (v.toNat = loadSpec s.fpcr.mode se.msb (se.toNat % 2 ^ 15) m ↔
        ¬ Mirrored s.fpcr.mode se.msb (se.toNat % 2 ^ 15) m)) ∧
    (¬ Format.double.IsNan d.toNat → fpuF80ToDouble r (fpuDoubleToF80 mem d p) p = d) := by
  refine ⟨?_, ⟨_, load_run s, ?_⟩, fun hnan => ?_⟩
  · obtain ⟨t, hrun, hmem, hflags⟩ := store_run s
    rw [add_zero_offset] at hmem
    refine ⟨t, hrun, hflags, fun hnan => hmem.trans (fpuDoubleToF80_eq hnan _ _).symm, fun u hu h1 => ?_⟩
    obtain ⟨d, hd⟩ : ∃ d : BitVec 64, d = s.getF .d 28 := ⟨_, rfl⟩
    rw [← hd] at hmem ⊢
    obtain ⟨hm, hse⟩ := load_stored s.core.mem (s.core.get 1) (storeBits d).1 ((storeBits d).2.setWidth 16)
    obtain ⟨w, hload, hres, hwflags⟩ := load_run u
    refine ⟨w, hload, ?_, hwflags⟩
    have hexp : (storeFields d).2.toNat < 2 ^ 15 := by
      exact Nat.lt_of_le_of_lt (storeFields_le d) (by decide)
    obtain ⟨hmsb, hfield⟩ := storeWord hexp d
    have hstored := loadSpec_store u.fpcr.mode d
    have hbits := loadBits_iff u.fpcr (storeBits d).1 ((storeBits d).2.setWidth 16)
    have hmsb' : ((storeBits d).2.setWidth 16).msb = Format.double.sign d.toNat := hmsb
    have hfield' : ((storeBits d).2.setWidth 16).toNat % 2 ^ 15 = (storeFields d).2.toNat := hfield
    rw [add_zero_offset, hu, h1, hmem, hm, hse] at hres
    rw [hmsb', hfield'] at hbits
    exact (congrArg BitVec.toNat hres).trans ((hbits.2 hstored.2).trans hstored.1)
  · rw [add_zero_offset]
    exact loadBits_iff s.fpcr _ _
  · obtain ⟨hm, hse⟩ := load_stored mem p (storeBits d).1 ((storeBits d).2.setWidth 16)
    rw [fpuDoubleToF80_eq hnan]
    exact fpuF80ToDouble_eq r hnan hm hse

/-- `x1` at a place that holds `-(1 + 2^-63)`, rounding up. -/
def roundingUp : FpState where
  core := { x := fun _ => 0, sp := 0, flags := ⟨false, false, false, false⟩, fails := 0,
            mem := (ByteMem.store (fun _ => 0) 0 (0x8000000000000001 : BitVec 64)).store (0 + 8) (0xbfff : BitVec 16) }
  v := fun _ => 0
  fpcr := ⟨.up, false⟩

/-- `FLD m80` of this value: rounded up it is -1, and the load gives the double below it. -/
theorem x87LoadM80_mirrored : ¬ ∀ s : FpState, fpMachine.Leads x87LoadM80 0 s fun w =>
    (w.getF .d 28).toNat = loadSpec s.fpcr.mode (s.core.mem.load 16 (s.core.get 1 + 8)).msb
      ((s.core.mem.load 16 (s.core.get 1 + 8)).toNat % 2 ^ 15) (s.core.mem.load 64 (s.core.get 1)) := by
  intro h
  obtain ⟨w, hrun, hspec⟩ := h roundingUp
  obtain ⟨w', hrun', hres, -⟩ := load_run roundingUp
  obtain rfl := LineCode.Machine.Goes.last_unique hrun hrun'
  obtain ⟨hm, hse⟩ := load_stored (fun _ => 0) 0 0x8000000000000001 0xbfff
  have hm' : roundingUp.core.mem.load 64 (roundingUp.core.get 1) = 0x8000000000000001 := hm
  have hse' : roundingUp.core.mem.load 16 (roundingUp.core.get 1 + 8) = 0xbfff := hse
  rw [add_zero_offset, hm', hse'] at hres
  rw [hm', hse'] at hspec
  exact (loadBits_iff roundingUp.fpcr 0x8000000000000001 0xbfff).1
    ((congrArg BitVec.toNat hres).symm.trans hspec) (by decide)

end PS4Recomp.Lifter
