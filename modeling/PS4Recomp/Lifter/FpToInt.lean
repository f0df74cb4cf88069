import PS4Recomp.Arm64.Float
import PS4Recomp.Library.BitCount
import PS4Recomp.Library.Words

/-!
# Conversions of floats to integers

`fpToIntX86`, `fpToInt16X86` and `packedFpToInt32X86`: `FCVTZS` saturates and takes a NaN to 0, where x86
gives the integer indefinite value.

* `x86FpToInt` — what x86 leaves: the rounded integer, or the most negative one;
* `raise_max`, `fitting_mask` — how the fix-ups find a saturated result;
* `toInt_full`, `toInt_narrow` — these recover the indefinite value from the saturated one;
* `flush_agrees_iff` — when flushing the operand does not show;
* `fpToIntX86_run`, `fpToInt16X86_run`, `packed_value` — what the three sequences leave;
* `fpToInt_exact` — they leave the x86 result exactly where the operand is not in `v30` and flushing does
  not show, and they leave the flags as they were.
-/

namespace PS4Recomp.Lifter

open Library Library.Lanes Arm64

/-! ### the code -/

/-- All ones in `x2` unless the float is a NaN. -/
def orderedMask (f : FpSize) (src : VReg) : List FpInstr :=
  .fcmeq f 30 src src ::
    match f with
    | .d => [.fmovOut .d 2 30]
    | .s => [.fmovOut .s 2 30, .core (.sxt 32 .x 2 2)]

/-- The fix-up of a conversion in which the largest integer is no float. -/
def raiseMax (sf : Width) (dst : XReg) : List (Instr ℕ) :=
  match sf with
  | .x => [.logic .eor false .x 1 dst (.imm 0x7fffffffffffffff), .clz .x 1 1, .addLsr .x dst dst 1 6,
      .mvn .x 2 2, .logic .and false .x 2 2 (.imm 0x8000000000000000), .logic .orr false .x dst dst (.reg 2 0)]
  | .w => [.logic .eor false .w 1 dst (.imm 0x7fffffff), .clz .w 1 1, .addLsr .w dst dst 1 5,
      .mvn .w 2 2, .logic .and false .w 2 2 (.imm 0x80000000), .logic .orr false .w dst dst (.reg 2 0)]

/-- The fix-up of a conversion to 64 bits for a result of `k` bits. -/
def keepFitting (k : ℕ) (dst : XReg) (indefinite : BitVec 64) : List (Instr ℕ) :=
  [.sxt k .x 1 dst,
    .logic .eor false .x 1 1 (.reg dst 0), -- 0 iff it fits
    .clz .x 1 1,
    .shift .lsr .x 1 1 6,
    .addSub .sub false .x 1 1 (.imm 1), -- 0 iff it fits, else all ones
    .orn .x 1 1 2, -- ... or NaN
    .bic .w dst dst 1,
    .logic .and false .w 1 1 (.imm indefinite),
    .logic .orr false .w dst dst (.reg 1 0)]

/-- `fpToIntX86`. -/
def fpToIntX86 (sf : Width) (f : FpSize) (dst : XReg) (src : VReg) (trunc : Bool) : List FpInstr :=
  let vn := if trunc then src else 31
  (if trunc then [] else [.frintx f 31 src]) ++
    match sf, f with
    | .w, .d => .fcvtzs f .x dst vn :: (orderedMask f vn ++ (keepFitting 32 dst 0x80000000).map .core)
    | _, _ => .fcvtzs f sf dst vn :: (orderedMask f vn ++ (raiseMax sf dst).map .core)

/-- `fpToInt16X86`. -/
def fpToInt16X86 (dst : XReg) (src : VReg) (trunc : Bool) : List FpInstr :=
  let vn := if trunc then src else 31
  (if trunc then [] else [.frintx .d 31 src]) ++
    .fcvtzs .d .x dst vn :: (orderedMask .d vn ++ (keepFitting 16 dst 0x8000).map .core)

/-- `packedFpToInt32X86`. -/
def packedFpToInt32X86 (d s : VReg) (trunc : Bool) : List FpInstr :=
  .fcmeq4s 30 s s ::
    ((if trunc then [] else [.frintx4s 31 s]) ++
      [.fcvtzs4s d (if trunc then s else 31),
        .movi4s 31 0x7fffffff,
        .cmeq4s 29 d 31,
        .orn 29 29 30, -- saturated high or NaN
        .movi4s 31 0x80000000,
        .bit d 31 29])

/-! ### the x86 result -/

/-- The rounding of a conversion. -/
def convMode (c : Fpcr) (trunc : Bool) : RoundMode := if trunc then .zero else c.mode

/-- The x86 conversion; with `daz`, subnormal operands are zeros. -/
def x86FpToInt (w : ℕ) (f : FpSize) (c : Fpcr) (daz trunc : Bool) (x : BitVec f.bits) : BitVec w :=
  f.format.toIntIndefinite w (convMode c trunc) (f.format.flush daz x.toNat)

/-- `FPCR.FZ` does what the x86 mode asks for, or it does not matter. -/
def FlushAgrees (f : FpSize) (c : Fpcr) (daz trunc : Bool) (x : BitVec f.bits) : Prop :=
  c.fz = daz ∨ ¬ f.format.RoundsAway (convMode c trunc) x.toNat

/-- A float that x86 converts to 0. -/
def RoundsToZero (f : FpSize) (c : Fpcr) (daz trunc : Bool) (x : BitVec f.bits) : Prop :=
  f.format.IsFinite (f.format.flush daz x.toNat) ∧
    (convMode c trunc).round (f.format.value (f.format.flush daz x.toNat)) = 0

/-- When `packedFpToInt32X86` converts a lane of `v<s>` right. -/
def PackedRight (s : VReg) (c : Fpcr) (daz trunc : Bool) (x : BitVec 32) : Prop :=
  if s = 30 then Format.single.IsNan x.toNat ∨ RoundsToZero .s c daz trunc x
  else FlushAgrees .s c daz trunc x

/-! ### saturated results -/

section Words

variable {w k : ℕ} {F : Format} {m : RoundMode} {x : ℕ}

theorem clz_shift (hw : w = 2 ^ k) (x : BitVec w) : x.clz >>> k = if x = 0 then 1 else 0 := by
  have hpos : 0 < w := hw ▸ Nat.two_pow_pos k
  have hone : 1 < 2 ^ w := Nat.one_lt_two_pow (by omega)
  apply BitVec.eq_of_toNat_eq
  rw [BitVec.toNat_ushiftRight, Nat.shiftRight_eq_div_pow, ← hw]
  split
  · rename_i h
    rw [h, BitCount.clz_zero, Nat.div_self hpos, BitVec.ofNat_eq_ofNat, BitVec.toNat_ofNat,
      Nat.mod_eq_of_lt hone]
  · rename_i h
    rw [BitCount.clz_toNat h, Nat.div_eq_of_lt (by omega)]
    rfl

theorem intMax_ne_zero (hw : 2 ≤ w) : BitVec.intMax w ≠ 0 := by
  intro h
  have hnat := congrArg BitVec.toNat h
  have hpow : 2 ^ 1 ≤ 2 ^ (w - 1) := Nat.pow_le_pow_right (by omega) (by omega)
  rw [BitVec.toNat_intMax, BitVec.ofNat_eq_ofNat, BitVec.toNat_ofNat, Nat.zero_mod] at hnat
  omega

theorem raise_max (hw : w = 2 ^ k) (r : BitVec w) :
    r + (r ^^^ BitVec.intMax w).clz >>> k = if r = BitVec.intMax w then BitVec.intMin w else r := by
  have hpos : 0 < w := hw ▸ Nat.two_pow_pos k
  have hpow : 2 ^ w = 2 * 2 ^ (w - 1) := by rw [← pow_succ', Nat.sub_add_cancel hpos]
  have hone : 1 < 2 ^ w := Nat.one_lt_two_pow (by omega)
  rw [clz_shift hw]
  by_cases h : r = BitVec.intMax w
  · have hzero : r ^^^ BitVec.intMax w = 0 := BitVec.xor_eq_zero_iff.2 h
    have hhalf := Nat.two_pow_pos (w - 1)
    rw [if_pos hzero, if_pos h, h]
    apply BitVec.eq_of_toNat_eq
    rw [BitVec.toNat_add, BitVec.toNat_intMax, BitVec.toNat_intMin, BitVec.ofNat_eq_ofNat,
      BitVec.toNat_ofNat, Nat.mod_eq_of_lt hone, Nat.sub_add_cancel hhalf]
  · have hne : r ^^^ BitVec.intMax w ≠ 0 := fun hzero => h (BitVec.xor_eq_zero_iff.1 hzero)
    rw [if_neg hne, if_neg h]
    exact BitVec.add_zero r

theorem raise_word (hw : w = 2 ^ k) (hk : 1 ≤ k) {r : BitVec w} {o : Bool} (h : o = false → r = 0) :
    (r + (r ^^^ BitVec.intMax w).clz >>> k) ||| (~~~maskOf w o &&& BitVec.intMin w) =
      if o then if r = BitVec.intMax w then BitVec.intMin w else r else BitVec.intMin w := by
  rw [raise_max hw]
  cases o with
  | false =>
      have htwo : 2 ≤ w := hw ▸ Nat.pow_le_pow_right (show 0 < 2 by omega) hk
      have hmax : r ≠ BitVec.intMax w := by
        rw [h rfl]
        exact (intMax_ne_zero htwo).symm
      rw [if_neg hmax, h rfl, if_neg Bool.false_ne_true, maskOf, if_neg Bool.false_ne_true]
      exact (BitVec.zero_or).trans ((congrArg (· &&& _) BitVec.not_zero).trans BitVec.allOnes_and)
  | true =>
      rw [if_pos rfl, maskOf, if_pos rfl, BitVec.not_allOnes, BitVec.zero_and, BitVec.or_zero]

/-- The mask of `keepFitting` on words: all ones unless the result fits and is of no NaN. -/
theorem fitting_mask (k : ℕ) (r : BitVec 64) (o : Bool) :
    (((r.setWidth k).signExtend 64 ^^^ r).clz >>> 6 - 1) ||| ~~~maskOf 64 o =
      maskOf 64 (!(decide ((r.setWidth k).signExtend 64 = r) && o)) := by
  rw [clz_shift (show 64 = 2 ^ 6 by rfl)]
  by_cases h : (r.setWidth k).signExtend 64 = r
  · have hzero : (r.setWidth k).signExtend 64 ^^^ r = 0 := BitVec.xor_eq_zero_iff.2 h
    rw [if_pos hzero, decide_eq_true h, Bool.true_and]
    cases o with
    | false => rfl
    | true => decide
  · have hne : (r.setWidth k).signExtend 64 ^^^ r ≠ 0 := fun hzero => h (BitVec.xor_eq_zero_iff.1 hzero)
    rw [if_neg hne, decide_eq_false h, Bool.false_and, Bool.not_false]
    cases o with
    | false => decide
    | true => decide

theorem toInt_saturate (hw : 0 < w) (z : ℤ) :
    (saturate w z).toInt = max (-2 ^ (w - 1)) (min (2 ^ (w - 1) - 1) z) := by
  have hpos : (0 : ℤ) < 2 ^ (w - 1) := by positivity
  exact BitVec.toInt_ofInt_eq_self hw (by omega) (by omega)

/-- The saturated result is the largest integer: where the value is no smaller. -/
theorem saturate_eq_intMax (hw : 0 < w) (z : ℤ) : saturate w z = BitVec.intMax w ↔ 2 ^ (w - 1) - 1 ≤ z := by
  have hpos : (0 : ℤ) < 2 ^ (w - 1) := by positivity
  rw [← BitVec.toInt_inj, toInt_saturate hw, BitVec.toInt_intMax]
  omega

/-- **The fix-up of a conversion in which the largest integer is no float.** -/
theorem toInt_full (hw : F.fw + 2 < w) :
    (if F.IsNan x then BitVec.intMin w
      else if F.toIntSat w m x = BitVec.intMax w then BitVec.intMin w else F.toIntSat w m x) =
      F.toIntIndefinite w m x := by
  have hpos : 0 < w := by omega
  by_cases hnan : F.IsNan x
  · have hfin : ¬ F.IsFinite x := Nat.not_lt.2 (Nat.le_of_lt hnan)
    rw [if_pos hnan, Format.toIntIndefinite, if_neg (fun h => hfin h.1)]
  rw [if_neg hnan, Format.toIntSat, if_neg hnan]
  by_cases hfin : F.IsFinite x
  · rw [if_pos hfin]
    have hiff := saturate_eq_intMax hpos (m.round (F.value x))
    have hsat := toInt_saturate hpos (m.round (F.value x))
    -- the largest integer has more digits than the fraction, and is odd
    have hodd : m.round (F.value x) ≠ 2 ^ (w - 1) - 1 := by
      intro heq
      obtain ⟨j, rfl⟩ := Nat.exists_eq_add_of_lt hw
      have hge := Nat.le_mul_of_pos_right (2 ^ (F.fw + 1)) (Nat.two_pow_pos j)
      have hone := Nat.two_pow_pos (F.fw + 1)
      have hcast : m.round (F.value x) = (2 * (2 ^ (F.fw + 1) * 2 ^ j) : ℕ) - 1 := by
        rw [heq]
        push_cast
        ring
      have hnat : (m.round (F.value x)).natAbs = 2 * (2 ^ (F.fw + 1) * 2 ^ j) - 1 := by omega
      have heven := Format.round_even (F := F) (x := x) m (by rw [hnat]; omega)
      rw [hnat] at heven
      omega
    by_cases hmax : 2 ^ (w - 1) - 1 ≤ m.round (F.value x)
    · rw [if_pos (hiff.2 hmax), Format.toIntIndefinite, if_neg]
      rintro ⟨-, -, hlt⟩
      omega
    · rw [if_neg (fun h => hmax (hiff.1 h)), Format.toIntIndefinite]
      split
      · rename_i h
        rw [saturate]
        congr 1
        omega
      · rename_i h
        have hlt : m.round (F.value x) < -2 ^ (w - 1) := by
          by_contra hge
          exact h ⟨hfin, by omega, by omega⟩
        rw [← BitVec.toInt_inj, hsat, BitVec.toInt_intMin_of_pos hpos]
        omega
  · have hindefinite : F.toIntIndefinite w m x = BitVec.intMin w := by
      rw [Format.toIntIndefinite, if_neg (fun h => hfin h.1)]
    rw [if_neg hfin, hindefinite]
    cases F.sign x with
    | false => rw [if_neg Bool.false_ne_true, if_pos rfl]
    | true =>
        rw [if_pos rfl]
        split
        · rfl
        · rfl

/-- A word is the sign extension of its low bits: its value is one of so few bits. -/
theorem signExtend_low (hk : 0 < k) (hk' : k < w) (r : BitVec w) :
    (r.setWidth k).signExtend w = r ↔ -2 ^ (k - 1) ≤ r.toInt ∧ r.toInt < 2 ^ (k - 1) := by
  constructor
  · intro h
    rw [← h, BitVec.toInt_signExtend_of_le hk'.le]
    exact ⟨BitVec.le_toInt _, BitVec.toInt_lt⟩
  · rintro ⟨hlo, hhi⟩
    rw [← BitVec.toInt_inj, BitVec.toInt_signExtend_of_le hk'.le]
    have heq := Words.setWidth_eq_ofInt hk'.le r
    rw [heq]
    exact BitVec.toInt_ofInt_eq_self hk hlo hhi

/-- **The fix-up of a conversion to a wider integer.** -/
theorem toInt_narrow (hk : 0 < k) (hk' : k < w) :
    (if ((F.toIntSat w m x).setWidth k).signExtend w = F.toIntSat w m x ∧ ¬ F.IsNan x then
        (F.toIntSat w m x).setWidth k else BitVec.intMin k) =
      F.toIntIndefinite k m x := by
  have hpos : 0 < w := by omega
  have hpow : (2 : ℤ) ^ (k - 1) < 2 ^ (w - 1) := pow_lt_pow_right₀ (by norm_num) (by omega)
  have hone : (0 : ℤ) < 2 ^ (k - 1) := by positivity
  by_cases hnan : F.IsNan x
  · have hfin : ¬ F.IsFinite x := Nat.not_lt.2 (Nat.le_of_lt hnan)
    rw [if_neg (fun h => h.2 hnan), Format.toIntIndefinite, if_neg (fun h => hfin h.1)]
  simp only [signExtend_low hk hk']
  rw [Format.toIntSat, if_neg hnan]
  by_cases hfin : F.IsFinite x
  · have hsat := toInt_saturate hpos (m.round (F.value x))
    rw [if_pos hfin, hsat, Words.setWidth_eq_ofInt hk'.le, hsat]
    by_cases hfits : -2 ^ (k - 1) ≤ m.round (F.value x) ∧ m.round (F.value x) < 2 ^ (k - 1)
    · have hclip : max (-2 ^ (w - 1)) (min (2 ^ (w - 1) - 1) (m.round (F.value x))) =
          m.round (F.value x) := by omega
      rw [hclip, if_pos ⟨hfits, hnan⟩, Format.toIntIndefinite, if_pos ⟨hfin, hfits⟩]
    · have hindefinite : F.toIntIndefinite k m x = BitVec.intMin k := by
        rw [Format.toIntIndefinite, if_neg (fun h => hfits h.2)]
      rw [hindefinite, if_neg]
      rintro ⟨hclip, -⟩
      omega
  · have hindefinite : F.toIntIndefinite k m x = BitVec.intMin k := by
      rw [Format.toIntIndefinite, if_neg (fun h => hfin h.1)]
    rw [if_neg hfin, hindefinite, if_neg]
    rintro ⟨hclip, -⟩
    cases hs : F.sign x with
    | false =>
        rw [hs, if_neg Bool.false_ne_true, BitVec.toInt_intMax] at hclip
        omega
    | true =>
        rw [hs, if_pos rfl, BitVec.toInt_intMin_of_pos hpos] at hclip
        omega

end Words
/-! ### runs -/

section Runs

variable {f : FpSize} {c : Fpcr} {trunc : Bool}

/-- The pattern that is converted. -/
def toConvert (f : FpSize) (c : Fpcr) (trunc : Bool) (x : BitVec f.bits) : BitVec f.bits :=
  if trunc then x else frintBits f c x

theorem isNan_toConvert (x : BitVec f.bits) :
    f.format.IsNan (toConvert f c trunc x).toNat ↔ f.format.IsNan x.toNat := by
  rw [toConvert]
  split
  · exact Iff.rfl
  · rw [toNat_frintBits, Format.isNan_frint, Format.isNan_flush]

theorem fcvtzs_toConvert (w : ℕ) (x : BitVec f.bits) :
    fcvtzsBits f c w (toConvert f c trunc x) =
      f.format.toIntSat w (convMode c trunc) (f.format.flush c.fz x.toNat) := by
  rw [fcvtzsBits, toConvert, convMode]
  split
  · rfl
  · rw [toNat_frintBits, Format.toIntSat_flush, Format.toIntSat_frint]

/-- The registers that a conversion leaves as they were. -/
structure Converted (dst : XReg) (s s' : FpState) : Prop where
  flags : s'.core.flags = s.core.flags
  mem : s'.core.mem = s.core.mem
  fpcr : s'.fpcr = s.fpcr
  get : ∀ r : XReg, r ≠ 1 → r ≠ 2 → r ≠ dst → s'.core.get r = s.core.get r
  v : ∀ n : VReg, n ≠ 30 → n ≠ 31 → s'.v n = s.v n

theorem Converted.trans {dst : XReg} {s s' s'' : FpState} (h : Converted dst s s') (h' : Converted dst s' s'') :
    Converted dst s s'' :=
  ⟨h'.flags.trans h.flags, h'.mem.trans h.mem, h'.fpcr.trans h.fpcr,
    fun r h1 h2 hd => (h'.get r h1 h2 hd).trans (h.get r h1 h2 hd),
    fun n h30 h31 => (h'.v n h30 h31).trans (h.v n h30 h31)⟩

theorem rounded_run (f : FpSize) (src : VReg) (dst : XReg) (trunc : Bool) (s : FpState) :
    (fpMachine.execs (if trunc then [] else [.frintx f 31 src]) s).getF f (if trunc then src else 31) =
        toConvert f s.fpcr trunc (s.getF f src) ∧
      Converted dst s (fpMachine.execs (if trunc then [] else [.frintx f 31 src]) s) := by
  cases trunc with
  | true => exact ⟨rfl, rfl, rfl, rfl, fun _ _ _ _ => rfl, fun _ _ _ => rfl⟩
  | false =>
      refine ⟨getF_setF_self _, rfl, rfl, rfl, fun _ _ _ _ => rfl, fun n _ h31 => ?_⟩
      exact v_setV_ne h31 _

theorem signExtend_maskOf (b : Bool) : ((((maskOf 32 b).setWidth 64).setWidth 32).signExtend 64) = maskOf 64 b := by
  cases b with
  | false => decide
  | true => decide

theorem orderedMask_run (f : FpSize) (vn : VReg) (dst : XReg) (s : FpState) :
    (fpMachine.execs (orderedMask f vn) s).core.get 2 =
        maskOf 64 (decide (¬ f.format.IsNan (s.getF f vn).toNat)) ∧
      Converted dst s (fpMachine.execs (orderedMask f vn) s) ∧
      (dst ≠ 2 → (fpMachine.execs (orderedMask f vn) s).core.get dst = s.core.get dst) := by
  cases f with
  | d =>
      refine ⟨?_, ⟨State.set_flags _ _ _, State.set_mem _ _ _, rfl, fun r _ h2 _ => State.get_set_ne h2,
        fun n h30 _ => v_setV_ne h30 _⟩, fun h2 => State.get_set_ne h2⟩
      refine (State.get_set_self (by decide)).trans ?_
      refine (congrArg (BitVec.setWidth 64) (getF_setF_self (f := .d) _)).trans ?_
      rw [feq_self]
      exact BitVec.setWidth_eq _
  | s =>
      refine ⟨?_, ⟨?_, ?_, rfl, ?_, fun n h30 _ => v_setV_ne h30 _⟩, ?_⟩
      · refine (State.get_setW_self (by decide)).trans ?_
        refine (BitVec.setWidth_eq _).trans ?_
        refine (congrArg (fun y : BitVec 64 => (y.setWidth 32).signExtend 64)
          (State.get_set_self (by decide))).trans ?_
        refine (congrArg (fun y : BitVec 32 => ((y.setWidth 64).setWidth 32).signExtend 64)
          (getF_setF_self (f := .s) _)).trans ?_
        rw [feq_self]
        exact signExtend_maskOf _
      · exact (State.set_flags _ _ _).trans (State.set_flags _ _ _)
      · exact (State.set_mem _ _ _).trans (State.set_mem _ _ _)
      · exact fun r _ h2 _ => (State.get_set_ne h2).trans (State.get_set_ne h2)
      · exact fun h2 => (State.get_set_ne h2).trans (State.get_set_ne h2)

/-- Code on general registers that writes only the result and the scratch registers. -/
theorem converted_core {dst : XReg} {s : FpState} {t : State} (hflags : t.flags = s.core.flags)
    (hmem : t.mem = s.core.mem) (hget : ∀ r : XReg, r ≠ 1 → r ≠ 2 → r ≠ dst → t.get r = s.core.get r) :
    Converted dst s { s with core := t } :=
  ⟨hflags, hmem, rfl, hget, fun _ _ _ => rfl⟩

theorem raiseMax_sets (sf : Width) (dst : XReg) : ∀ i ∈ raiseMax sf dst, i.Sets [1, 2, dst] := by
  cases sf with
  | x => simp [raiseMax, Instr.clz, Instr.addLsr]
  | w => simp [raiseMax, Instr.clz, Instr.addLsr]

theorem keepFitting_sets (k : ℕ) (dst : XReg) (indefinite : BitVec 64) :
    ∀ i ∈ keepFitting k dst indefinite, i.Sets [1, 2, dst] := by
  simp [keepFitting, Instr.clz, Instr.orn, Instr.bic]

theorem setWidth_maskOf (o : Bool) : (maskOf 64 o).setWidth 32 = maskOf 32 o := by
  cases o with
  | false => decide
  | true => decide

/-- The fix-up of a conversion in which the largest integer is no float. -/
theorem raiseMax_run (sf : Width) {dst : XReg} (h1 : dst ≠ 1) (h2 : dst ≠ 2) (h31 : dst ≠ 31) (t : State)
    {r : BitVec sf.bits} {o : Bool} (hr : t.getW sf dst = r) (ho : t.get 2 = maskOf 64 o)
    (hnan : o = false → r = 0) :
    (execs (raiseMax sf dst) t).getW sf dst =
      if o then if r = BitVec.intMax sf.bits then BitVec.intMin sf.bits else r else BitVec.intMin sf.bits := by
  cases sf with
  | x =>
      have hmask : t.getW .x 2 = maskOf 64 o := (BitVec.setWidth_eq _).trans ho
      have hword := raise_word (show 64 = 2 ^ 6 by rfl) (by omega) hnan
      simp (disch := first | assumption | decide | (apply Ne.symm; assumption)) only [raiseMax, execs_cons, execs_nil,
        exec_logicW, Instr.clz, Instr.addLsr, Instr.exec_dp, exec_mvnW, eval_imm, eval_reg, Logic.eval,
        State.getW_setW_self, State.getW_setW_ne]
      rw [hr, hmask]
      exact hword
  | w =>
      have hmask : t.getW .w 2 = maskOf 32 o := (congrArg (BitVec.setWidth 32) ho).trans (setWidth_maskOf o)
      have hword := raise_word (show 32 = 2 ^ 5 by rfl) (by omega) hnan
      simp (disch := first | assumption | decide | (apply Ne.symm; assumption)) only [raiseMax, execs_cons, execs_nil,
        exec_logicW, Instr.clz, Instr.addLsr, Instr.exec_dp, exec_mvnW, eval_imm, eval_reg, Logic.eval,
        State.getW_setW_self, State.getW_setW_ne]
      rw [hr, hmask]
      exact hword

/-- The fix-up of a conversion to 64 bits for a result of fewer. -/
theorem keepFitting_run {k : ℕ} {dst : XReg} (indefinite : BitVec 64) (h1 : dst ≠ 1)
    (h31 : dst ≠ 31) (t : State) {r : BitVec 64} {o : Bool} (hr : t.get dst = r) (ho : t.get 2 = maskOf 64 o) :
    (execs (keepFitting k dst indefinite) t).getW .w dst =
      if (r.setWidth k).signExtend 64 = r ∧ o = true then r.setWidth 32 else indefinite.setWidth 32 := by
  have hmask : t.getW .x 2 = maskOf 64 o := (BitVec.setWidth_eq _).trans ho
  have hrX : t.getW .x dst = r := (BitVec.setWidth_eq _).trans hr
  have hrW : t.getW .w dst = r.setWidth 32 := congrArg (BitVec.setWidth 32) hr
  have hword := fitting_mask k r o
  have hlow : ∀ (u : State) (v : BitVec Width.x.bits), (u.setW .x 1 v).getW .w 1 = v.setWidth 32 := by
    intro u v
    have hself : (u.setW .x 1 v).get 1 = v := (State.get_setW_self (by decide)).trans (BitVec.setWidth_eq _)
    exact congrArg (BitVec.setWidth 32) hself
  simp -implicitDefEqProofs (disch := first | assumption | decide | (apply Ne.symm; assumption)) only [keepFitting, execs_cons,
    execs_nil, exec_logicW, exec_shiftW, exec_subW, exec_sxtW, Instr.clz, Instr.orn, Instr.bic, Instr.exec_dp,
    eval_imm, eval_reg, Logic.eval, Shift.eval, State.getW_setW_self, State.getW_setW_ne, hlow]
  rw [hr, hmask, hrX, hrW]
  refine (congrArg (fun y : BitVec 64 => (r.setWidth 32 &&& ~~~y.setWidth 32) |||
    (y.setWidth 32 &&& indefinite.setWidth 32)) hword).trans ?_
  by_cases h : (r.setWidth k).signExtend 64 = r ∧ o = true
  · rw [if_pos h, decide_eq_true h.1, h.2]
    show (r.setWidth 32 &&& ~~~(maskOf 64 false).setWidth 32) ||| ((maskOf 64 false).setWidth 32 &&& _) = _
    rw [setWidth_maskOf, maskOf, if_neg Bool.false_ne_true]
    exact (congrArg₂ (· ||| ·) ((congrArg (r.setWidth 32 &&& ·) BitVec.not_zero).trans BitVec.and_allOnes)
      BitVec.zero_and).trans BitVec.or_zero
  · have hflag : (!(decide ((r.setWidth k).signExtend 64 = r) && o)) = true := by
      rw [Bool.not_eq_true', Bool.and_eq_false_iff, decide_eq_false_iff_not]
      cases o with
      | false => exact .inr rfl
      | true => exact .inl fun heq => h ⟨heq, rfl⟩
    rw [if_neg h, hflag, setWidth_maskOf, maskOf, if_pos rfl, BitVec.not_allOnes]
    exact (congrArg₂ (· ||| ·) BitVec.and_zero BitVec.allOnes_and).trans BitVec.zero_or

theorem conversion_run (sf : Width) (f : FpSize) {dst : XReg} (src : VReg) (trunc : Bool) (h2 : dst ≠ 2)
    (h31 : dst ≠ 31) (s : FpState) {is : List FpInstr}
    (his : is = (if trunc then [] else [.frintx f 31 src]) ++
      .fcvtzs f sf dst (if trunc then src else 31) :: orderedMask f (if trunc then src else 31)) :
    (fpMachine.execs is s).core.getW sf dst =
        f.format.toIntSat sf.bits (convMode s.fpcr trunc) (f.format.flush s.fpcr.fz (s.getF f src).toNat) ∧
      (fpMachine.execs is s).core.get 2 =
        maskOf 64 (decide (¬ f.format.IsNan (f.format.flush s.fpcr.fz (s.getF f src).toNat))) ∧
      Converted dst s (fpMachine.execs is s) := by
  obtain ⟨hconv, hpre⟩ := rounded_run f src dst trunc s
  rw [his, LineCode.Machine.execs_append]
  generalize hs1 : fpMachine.execs (if trunc then [] else [.frintx f 31 src]) s = s1 at hconv hpre
  have hexec : FpInstr.exec (.fcvtzs f sf dst (if trunc then src else 31)) s1 =
      s1.setX sf dst (f.format.toIntSat sf.bits (convMode s.fpcr trunc)
        (f.format.flush s.fpcr.fz (s.getF f src).toNat)) := by
    rw [← fcvtzs_toConvert, ← hconv, ← hpre.fpcr]
    rfl
  have hstep : Converted dst s1 (FpInstr.exec (.fcvtzs f sf dst (if trunc then src else 31)) s1) := by
    rw [hexec]
    exact ⟨State.set_flags _ _ _, State.set_mem _ _ _, rfl, fun r _ _ hd => State.get_set_ne hd,
      fun _ _ _ => rfl⟩
  obtain ⟨hmask, hkeep, hdst⟩ := orderedMask_run f (if trunc then src else 31) dst
    (FpInstr.exec (.fcvtzs f sf dst (if trunc then src else 31)) s1)
  refine ⟨?_, ?_, hpre.trans (hstep.trans hkeep)⟩
  · rw [State.getW, show (fpMachine.execs (.fcvtzs f sf dst _ :: orderedMask f _) s1).core.get dst = _ from hdst h2,
      hexec]
    exact State.getW_setW_self h31
  · refine hmask.trans ?_
    have hsame : (FpInstr.exec (.fcvtzs f sf dst (if trunc then src else 31)) s1).getF f
        (if trunc then src else 31) = s1.getF f (if trunc then src else 31) := rfl
    rw [hsame, hconv]
    simp only [isNan_toConvert, Format.isNan_flush]

theorem toIntSat_nan {F : Format} {w : ℕ} {m : RoundMode} {x : ℕ} (h : decide (¬ F.IsNan x) = false) :
    F.toIntSat w m x = 0 := by
  have hnan : F.IsNan x := not_not.1 (of_decide_eq_false h)
  rw [Format.toIntSat, if_pos hnan]

/-- **`fpToIntX86`** where the largest integer is no float. -/
theorem raised_run (sf : Width) (f : FpSize) {dst : XReg} (src : VReg) (trunc : Bool) (h1 : dst ≠ 1)
    (h2 : dst ≠ 2) (h31 : dst ≠ 31) (hfw : f.format.fw + 2 < sf.bits) (s : FpState) {is : List FpInstr}
    (his : is = (if trunc then [] else [.frintx f 31 src]) ++
      .fcvtzs f sf dst (if trunc then src else 31) :: orderedMask f (if trunc then src else 31)) :
    (fpMachine.execs (is ++ (raiseMax sf dst).map .core) s).core.getW sf dst =
        x86FpToInt sf.bits f s.fpcr s.fpcr.fz trunc (s.getF f src) ∧
      Converted dst s (fpMachine.execs (is ++ (raiseMax sf dst).map .core) s) := by
  obtain ⟨hdst, hmask, hkeep⟩ := conversion_run sf f src trunc h2 h31 s his
  obtain ⟨hflags, hmem, -, hget⟩ := Instr.execs_sets (raiseMax_sets sf dst) (fpMachine.execs is s).core
  rw [LineCode.Machine.execs_append, execs_core]
  refine ⟨?_, hkeep.trans (converted_core hflags hmem fun r hr1 hr2 hd => hget r ?_)⟩
  · refine (raiseMax_run sf h1 h2 h31 _ hdst hmask toIntSat_nan).trans ?_
    refine Eq.trans ?_ (toInt_full hfw)
    by_cases hnan : f.format.IsNan (f.format.flush s.fpcr.fz (s.getF f src).toNat)
    · rw [decide_eq_false (not_not.2 hnan), if_neg Bool.false_ne_true, if_pos hnan]
    · rw [decide_eq_true hnan, if_pos rfl, if_neg hnan]
  · simp only [List.mem_cons, List.not_mem_nil, or_false, not_or]
    exact ⟨hr1, hr2, hd⟩

theorem fitting_low {k : ℕ} (hk : k ≤ 32) {indefinite : BitVec 64}
    (hind : indefinite.setWidth k = BitVec.intMin k) (r : BitVec 64) (p : Prop) [Decidable p] :
    (if (r.setWidth k).signExtend 64 = r ∧ decide (¬ p) = true then r.setWidth 32
      else indefinite.setWidth 32).setWidth k =
      if (r.setWidth k).signExtend 64 = r ∧ ¬ p then r.setWidth k else BitVec.intMin k := by
  by_cases h : (r.setWidth k).signExtend 64 = r ∧ ¬ p
  · rw [if_pos h, if_pos ⟨h.1, decide_eq_true h.2⟩]
    exact BitVec.setWidth_setWidth_of_le _ hk
  · rw [if_neg h, if_neg fun hd => h ⟨hd.1, of_decide_eq_true hd.2⟩, ← hind]
    exact BitVec.setWidth_setWidth_of_le _ hk

theorem fitting_run {k : ℕ} (hk : 0 < k) (hk' : k ≤ 32) {indefinite : BitVec 64}
    (hind : indefinite.setWidth k = BitVec.intMin k) {dst : XReg} (src : VReg) (trunc : Bool) (h1 : dst ≠ 1)
    (h2 : dst ≠ 2) (h31 : dst ≠ 31) (s : FpState) {is : List FpInstr}
    (his : is = (if trunc then [] else [.frintx .d 31 src]) ++
      .fcvtzs .d .x dst (if trunc then src else 31) :: orderedMask .d (if trunc then src else 31)) :
    ((fpMachine.execs (is ++ (keepFitting k dst indefinite).map .core) s).core.getW .w dst).setWidth k =
        x86FpToInt k .d s.fpcr s.fpcr.fz trunc (s.getF .d src) ∧
      Converted dst s (fpMachine.execs (is ++ (keepFitting k dst indefinite).map .core) s) := by
  obtain ⟨hdst, hmask, hkeep⟩ := conversion_run .x .d src trunc h2 h31 s his
  obtain ⟨hflags, hmem, -, hget⟩ := Instr.execs_sets (keepFitting_sets k dst indefinite) (fpMachine.execs is s).core
  have hdst' := (BitVec.setWidth_eq _).symm.trans hdst
  rw [LineCode.Machine.execs_append, execs_core]
  refine ⟨?_, hkeep.trans (converted_core hflags hmem fun r hr1 hr2 hd => hget r ?_)⟩
  · refine (congrArg (BitVec.setWidth k) (keepFitting_run indefinite h1 h31 _ hdst' hmask)).trans ?_
    exact (fitting_low hk' hind _ _).trans (toInt_narrow hk (show k < 64 by omega))
  · simp only [List.mem_cons, List.not_mem_nil, or_false, not_or]
    exact ⟨hr1, hr2, hd⟩

/-- **`fpToIntX86`** leaves the x86 result. -/
theorem fpToIntX86_run (sf : Width) (f : FpSize) {dst : XReg} (src : VReg) (trunc : Bool) (h1 : dst ≠ 1)
    (h2 : dst ≠ 2) (h31 : dst ≠ 31) (s : FpState) :
    (fpMachine.execs (fpToIntX86 sf f dst src trunc) s).core.getW sf dst =
        x86FpToInt sf.bits f s.fpcr s.fpcr.fz trunc (s.getF f src) ∧
      Converted dst s (fpMachine.execs (fpToIntX86 sf f dst src trunc) s) := by
  have happend : ∀ (a : List FpInstr) (i : FpInstr) (b c : List FpInstr),
      a ++ i :: (b ++ c) = (a ++ i :: b) ++ c := by
    intro a i b c
    rw [List.append_assoc, List.cons_append]
  cases sf with
  | x =>
      cases f with
      | s =>
          simp only [fpToIntX86, happend]
          exact raised_run .x .s src trunc h1 h2 h31 (by decide) s rfl
      | d =>
          simp only [fpToIntX86, happend]
          exact raised_run .x .d src trunc h1 h2 h31 (by decide) s rfl
  | w =>
      cases f with
      | s =>
          simp only [fpToIntX86, happend]
          exact raised_run .w .s src trunc h1 h2 h31 (by decide) s rfl
      | d =>
          simp only [fpToIntX86, happend]
          obtain ⟨hres, hkeep⟩ := fitting_run (k := 32) (by decide) (by decide)
            (by decide : (0x80000000 : BitVec 64).setWidth 32 = _) src trunc h1 h2 h31 s rfl
          exact ⟨(BitVec.setWidth_eq _).symm.trans hres, hkeep⟩

/-- **`fpToInt16X86`** leaves the x86 result in the low bits. -/
theorem fpToInt16X86_run {dst : XReg} (src : VReg) (trunc : Bool) (h1 : dst ≠ 1) (h2 : dst ≠ 2)
    (h31 : dst ≠ 31) (s : FpState) :
    ((fpMachine.execs (fpToInt16X86 dst src trunc) s).core.getW .w dst).setWidth 16 =
        x86FpToInt 16 .d s.fpcr s.fpcr.fz trunc (s.getF .d src) ∧
      Converted dst s (fpMachine.execs (fpToInt16X86 dst src trunc) s) := by
  rw [fpToInt16X86, ← List.cons_append, ← List.append_assoc]
  exact fitting_run (by decide) (by decide) (by decide : (0x8000 : BitVec 64).setWidth 16 = _) src trunc h1 h2
    h31 s rfl

/-! ### four lanes -/

theorem lane_lanes4 (g : BitVec 32 → BitVec 32) (a : BitVec 128) {i : ℕ} (hi : i < 4) :
    lane 32 (lanes4 g a) i = g (lane 32 a i) :=
  lane_ofLanes _ (by omega)

theorem lane_lanes4₂ (g : BitVec 32 → BitVec 32 → BitVec 32) (a b : BitVec 128) {i : ℕ} (hi : i < 4) :
    lane 32 (lanes4₂ g a b) i = g (lane 32 a i) (lane 32 b i) :=
  lane_ofLanes _ (by omega)

/-- The lanes that are converted; the mask of the ordered lanes is in `v30`. -/
def packedSource (s : VReg) (c : Fpcr) (trunc : Bool) (x : BitVec 32) : BitVec 32 :=
  toConvert .s c trunc (if s = 30 then maskOf 32 (decide (¬ Format.single.IsNan x.toNat)) else x)

theorem feq_lane (c : Fpcr) (x : BitVec 32) :
    feq .single c.fz x.toNat x.toNat = decide (¬ Format.single.IsNan x.toNat) := feq_self _ _ _

theorem packed_source_run (vs : VReg) (trunc : Bool) (s : FpState) {i : ℕ} (hi : i < 4) :
    let s' := fpMachine.execs (.fcmeq4s 30 vs vs :: if trunc then [] else [.frintx4s 31 vs]) s
    lane 32 (s'.v (if trunc then vs else 31)) i = packedSource vs s.fpcr trunc (lane 32 (s.v vs) i) ∧
      lane 32 (s'.v 30) i = maskOf 32 (decide (¬ Format.single.IsNan (lane 32 (s.v vs) i).toNat)) ∧
      s'.fpcr = s.fpcr ∧ s'.core = s.core := by
  intro s'
  have hmask : lane 32 ((FpInstr.exec (.fcmeq4s 30 vs vs) s).v 30) i =
      maskOf 32 (decide (¬ Format.single.IsNan (lane 32 (s.v vs) i).toNat)) := by
    refine (congrArg (fun y => lane 32 y i) (v_setV_self _)).trans ?_
    rw [lane_lanes4₂ _ _ _ hi, feq_lane]
  have hread : lane 32 ((FpInstr.exec (.fcmeq4s 30 vs vs) s).v vs) i =
      if vs = 30 then maskOf 32 (decide (¬ Format.single.IsNan (lane 32 (s.v vs) i).toNat))
      else lane 32 (s.v vs) i := by
    split
    · rename_i h
      rw [← hmask, h]
    · rename_i h
      exact congrArg (fun y => lane 32 y i) (v_setV_ne h _)
  cases trunc with
  | true => exact ⟨hread, hmask, rfl, rfl⟩
  | false =>
      refine ⟨?_, ?_, rfl, rfl⟩
      · refine (congrArg (fun y => lane 32 y i) (v_setV_self _)).trans ?_
        exact (lane_lanes4 _ _ hi).trans (congrArg (frintBits .s s.fpcr) hread)
      · exact (congrArg (fun y => lane 32 y i) (v_setV_ne (by decide) _)).trans hmask

theorem packed_lane {d : VReg} (vs : VReg) (trunc : Bool) (h29 : d ≠ 29) (h30 : d ≠ 30) (h31 : d ≠ 31)
    (s : FpState) {i : ℕ} (hi : i < 4) :
    lane 32 ((fpMachine.execs (packedFpToInt32X86 d vs trunc) s).v d) i =
        (let r : BitVec 32 := fcvtzsBits .s s.fpcr 32 (packedSource vs s.fpcr trunc (lane 32 (s.v vs) i))
         let m := maskOf 32 (r == 0x7fffffff) |||
           ~~~maskOf 32 (decide (¬ Format.single.IsNan (lane 32 (s.v vs) i).toNat))
         (r &&& ~~~m) ||| (0x80000000 &&& m)) ∧
      (fpMachine.execs (packedFpToInt32X86 d vs trunc) s).core = s.core := by
  obtain ⟨hsrc, hmask, hfpcr, hcore⟩ := packed_source_run vs trunc s hi
  rw [packedFpToInt32X86, ← List.cons_append, LineCode.Machine.execs_append]
  generalize fpMachine.execs (.fcmeq4s 30 vs vs :: if trunc then [] else [.frintx4s 31 vs]) s = s1
    at hsrc hmask hfpcr hcore
  refine ⟨?_, hcore⟩
  rw [← hsrc, ← hmask, ← hfpcr]
  generalize (if trunc then vs else 31) = vn
  have hrun : (fpMachine.execs [.fcvtzs4s d vn, .movi4s 31 0x7fffffff, .cmeq4s 29 d 31, .orn 29 29 30,
      .movi4s 31 0x80000000, .bit d 31 29] s1).v d =
      (let r := lanes4 (fcvtzsBits .s s1.fpcr 32) (s1.v vn)
       let m := lanes4₂ (fun a b => maskOf 32 (a == b)) r (ofLanes 128 32 fun _ => 0x7fffffff) ||| ~~~s1.v 30
       (r &&& ~~~m) ||| ((ofLanes 128 32 fun _ => 0x80000000) &&& m)) := by
    simp (disch := first | assumption | decide | (apply Ne.symm; assumption)) only [LineCode.Machine.execs,
      List.foldl_cons, List.foldl_nil, fpMachine, FpInstr.exec, v_setV_self, v_setV_ne]
  have hlane : lane 32 (lanes4 (fcvtzsBits .s s1.fpcr 32) (s1.v vn)) i =
      fcvtzsBits .s s1.fpcr 32 (lane 32 (s1.v vn) i) := lane_lanes4 _ _ hi
  rw [hrun]
  dsimp only
  rw [lane_or, lane_and, lane_and, lane_not _ (by omega), lane_or, lane_not _ (by omega), lane_lanes4₂ _ _ _ hi,
    hlane, lane_ofLanes _ (by omega), lane_ofLanes _ (by omega)]

theorem lane_word (r : BitVec 32) (o : Bool) :
    (r &&& ~~~(maskOf 32 (r == 0x7fffffff) ||| ~~~maskOf 32 o)) |||
        (0x80000000 &&& (maskOf 32 (r == 0x7fffffff) ||| ~~~maskOf 32 o)) =
      if o then if r = BitVec.intMax 32 then BitVec.intMin 32 else r else BitVec.intMin 32 := by
  cases o with
  | false =>
      have hall : maskOf 32 (r == 0x7fffffff) ||| ~~~maskOf 32 false = BitVec.allOnes 32 :=
        (congrArg (_ ||| ·) BitVec.not_zero).trans BitVec.or_allOnes
      rw [hall, BitVec.not_allOnes, BitVec.and_allOnes, if_neg Bool.false_ne_true]
      exact (congrArg (· ||| _) BitVec.and_zero).trans BitVec.zero_or
  | true =>
      by_cases hmax : r = BitVec.intMax 32
      · rw [hmax]
        decide
      · have hne : (r == 0x7fffffff) = false := beq_eq_false_iff_ne.2 hmax
        have hmask : maskOf 32 false ||| ~~~maskOf 32 true = 0 := by decide
        rw [hne, if_pos rfl, if_neg hmax, hmask]
        exact (congrArg₂ (· ||| ·) ((congrArg (r &&& ·) BitVec.not_zero).trans BitVec.and_allOnes)
          BitVec.and_zero).trans BitVec.or_zero

/-- **`packedFpToInt32X86`**: a source in `v30` is lost to the mask of the ordered lanes. -/
theorem packed_value {d : VReg} (vs : VReg) (trunc : Bool) (h29 : d ≠ 29) (h30 : d ≠ 30) (h31 : d ≠ 31)
    (s : FpState) {i : ℕ} (hi : i < 4) :
    lane 32 ((fpMachine.execs (packedFpToInt32X86 d vs trunc) s).v d) i =
      if vs = 30 ∧ ¬ Format.single.IsNan (lane 32 (s.v vs) i).toNat then 0
      else x86FpToInt 32 .s s.fpcr s.fpcr.fz trunc (lane 32 (s.v vs) i) := by
  rw [(packed_lane vs trunc h29 h30 h31 s hi).1]
  generalize lane 32 (s.v vs) i = x
  dsimp only
  have hword : ∀ y : BitVec 32, fcvtzsBits .s s.fpcr 32 (toConvert .s s.fpcr trunc y) =
      Format.single.toIntSat 32 (convMode s.fpcr trunc) (Format.single.flush s.fpcr.fz y.toNat) :=
    fun y => @fcvtzs_toConvert .s s.fpcr trunc 32 y
  have hzero : ∀ y : BitVec 32, Format.single.IsNan y.toNat →
      fcvtzsBits .s s.fpcr 32 (toConvert .s s.fpcr trunc y) = 0 := by
    intro y hy
    rw [hword, Format.toIntSat, if_pos ((Format.isNan_flush _ _).2 hy)]
  have hfull := toInt_full (F := .single) (w := 32) (m := convMode s.fpcr trunc)
    (x := Format.single.flush s.fpcr.fz x.toNat) (by decide)
  rw [lane_word]
  by_cases hnan : Format.single.IsNan x.toNat
  · rw [if_pos ((Format.isNan_flush _ _).2 hnan)] at hfull
    rw [decide_eq_false (not_not.2 hnan), if_neg Bool.false_ne_true, hfull]
    exact (if_neg fun h => h.2 hnan).symm
  rw [if_neg (fun h => hnan ((Format.isNan_flush _ _).1 h))] at hfull
  rw [decide_eq_true hnan, if_pos rfl]
  by_cases hvs : vs = 30
  · have hsource : fcvtzsBits .s s.fpcr 32 (packedSource vs s.fpcr trunc x) = 0 := by
      have hmask : (if vs = 30 then maskOf 32 (decide (¬ Format.single.IsNan x.toNat)) else x) =
          BitVec.allOnes 32 := by rw [if_pos hvs, decide_eq_true hnan, maskOf, if_pos rfl]
      exact (congrArg (fun y : BitVec 32 => fcvtzsBits .s s.fpcr 32 (toConvert .s s.fpcr trunc y)) hmask).trans
        (hzero _ (by decide))
    rw [hsource, if_neg (intMax_ne_zero (by decide)).symm, if_pos ⟨hvs, hnan⟩]
  · have hsource : fcvtzsBits .s s.fpcr 32 (packedSource vs s.fpcr trunc x) =
        Format.single.toIntSat 32 (convMode s.fpcr trunc) (Format.single.flush s.fpcr.fz x.toNat) := by
      have hread : (if vs = 30 then maskOf 32 (decide (¬ Format.single.IsNan x.toNat)) else x) = x :=
        if_neg hvs
      exact (congrArg (fun y : BitVec 32 => fcvtzsBits .s s.fpcr 32 (toConvert .s s.fpcr trunc y)) hread).trans
        (hword x)
    rw [hsource, hfull]
    exact (if_neg fun h => hvs h.1).symm

end Runs

/-! ### the x86 results -/

theorem emin_le (f : FpSize) : f.format.emin ≤ -1 := by
  cases f with
  | s => decide
  | d => decide

theorem flush_agrees_iff {w : ℕ} (hw : 2 ≤ w) (f : FpSize) (c : Fpcr) (daz trunc : Bool) (x : BitVec f.bits) :
    x86FpToInt w f c c.fz trunc x = x86FpToInt w f c daz trunc x ↔ FlushAgrees f c daz trunc x :=
  Format.toIntIndefinite_flush hw (emin_le f) _ _ _ _

/-- **The conversions to integers**: the scalar sequences leave the x86 result exactly where flushing does
not show, and the packed one where, besides, its source is not in `v30`, or the lane is a NaN or rounds to
0; none changes the flags. -/
theorem fpToInt_exact (s : FpState) (daz trunc : Bool) :
    (∀ (sf : Width) (f : FpSize) (dst : XReg) (src : VReg), dst ≠ 1 → dst ≠ 2 → dst ≠ 31 →
      let s' := fpMachine.execs (fpToIntX86 sf f dst src trunc) s
      (s'.core.getW sf dst = x86FpToInt sf.bits f s.fpcr daz trunc (s.getF f src) ↔
          FlushAgrees f s.fpcr daz trunc (s.getF f src)) ∧
        s'.core.flags = s.core.flags) ∧
    (∀ (dst : XReg) (src : VReg), dst ≠ 1 → dst ≠ 2 → dst ≠ 31 →
      let s' := fpMachine.execs (fpToInt16X86 dst src trunc) s
      ((s'.core.getW .w dst).setWidth 16 = x86FpToInt 16 .d s.fpcr daz trunc (s.getF .d src) ↔
          FlushAgrees .d s.fpcr daz trunc (s.getF .d src)) ∧
        s'.core.flags = s.core.flags) ∧
    ∀ d vs : VReg, d ≠ 29 → d ≠ 30 → d ≠ 31 →
      let s' := fpMachine.execs (packedFpToInt32X86 d vs trunc) s
      (∀ i, i < 4 → (lane 32 (s'.v d) i = x86FpToInt 32 .s s.fpcr daz trunc (lane 32 (s.v vs) i) ↔
          PackedRight vs s.fpcr daz trunc (lane 32 (s.v vs) i))) ∧
        s'.core.flags = s.core.flags := by
  refine ⟨fun sf f dst src h1 h2 h31 => ?_, fun dst src h1 h2 h31 => ?_, fun d vs h29 h30 h31 => ⟨?_, ?_⟩⟩
  · obtain ⟨hres, hkeep⟩ := fpToIntX86_run sf f src trunc h1 h2 h31 s
    have hw : 2 ≤ sf.bits := by
      cases sf with
      | w => decide
      | x => decide
    refine ⟨?_, hkeep.flags⟩
    rw [hres]
    exact flush_agrees_iff hw f s.fpcr daz trunc _
  · obtain ⟨hres, hkeep⟩ := fpToInt16X86_run src trunc h1 h2 h31 s
    refine ⟨?_, hkeep.flags⟩
    rw [hres]
    exact flush_agrees_iff (by decide) .d s.fpcr daz trunc _
  · intro i hi
    rw [packed_value vs trunc h29 h30 h31 s hi, PackedRight]
    generalize lane 32 (s.v vs) i = x
    have hflush := flush_agrees_iff (w := 32) (by decide) .s s.fpcr daz trunc x
    by_cases hvs : vs = 30
    · by_cases hnan : Format.single.IsNan x.toNat
      · -- a NaN is not flushed
        have hle := Format.two_pow_fw_le_infMag (F := .single)
        have haway : ¬ Format.single.RoundsAway (convMode s.fpcr trunc) x.toNat := fun h =>
          absurd h.2.1 (Nat.not_lt.2 (hle.trans (Nat.le_of_lt hnan)))
        rw [if_neg (fun h => h.2 hnan), if_pos hvs]
        exact iff_of_true (hflush.2 (.inr haway)) (.inl hnan)
      · rw [if_pos ⟨hvs, hnan⟩, if_pos hvs, eq_comm]
        refine (Format.toIntIndefinite_eq_zero (w := 32) (by decide) _).trans ?_
        exact ⟨.inr, fun h => h.resolve_left hnan⟩
    · rw [if_neg (fun h => hvs h.1), if_neg hvs]
      exact hflush
  · exact congrArg State.flags (packed_lane vs trunc h29 h30 h31 s (show 0 < 4 by decide)).2

/-- The registers when `v0` and `v30` hold four times 1.0. -/
def onesState : FpState where
  core := { x := fun _ => 0, sp := 0, flags := ⟨false, false, false, false⟩, mem := fun _ => 0, fails := 0 }
  v := fun _ => 0x3f8000003f8000003f8000003f800000
  fpcr := ⟨.nearest, false⟩

/-- `cvtsd2si rax, xmm0` and the three conversions in this state. -/
theorem fpToInt_exact_ones :
    (let s' := fpMachine.execs (fpToIntX86 .x .d 0 0 false) onesState
     s'.core.getW .x 0 = x86FpToInt 64 .d onesState.fpcr false false (onesState.getF .d 0)) ∧
      (let s' := fpMachine.execs (fpToInt16X86 17 28 false) onesState
       (s'.core.getW .w 17).setWidth 16 = x86FpToInt 16 .d onesState.fpcr false false (onesState.getF .d 28)) ∧
      let s' := fpMachine.execs (packedFpToInt32X86 1 0 false) onesState
      lane 32 (s'.v 1) 3 = x86FpToInt 32 .s onesState.fpcr false false (lane 32 (onesState.v 0) 3) :=
  have h := fpToInt_exact onesState false false
  ⟨(h.1 .x .d 0 0 (by decide) (by decide) (by decide)).1.2 (.inl rfl),
    (h.2.1 17 28 (by decide) (by decide) (by decide)).1.2 (.inl rfl),
    ((h.2.2 1 0 (by decide) (by decide) (by decide)).1 3 (by decide)).2
      (by rw [PackedRight, if_neg (by decide)]; exact .inl rfl)⟩

/-- `cvttps2dq xmm1, [mem]`: the four times 1.0 that were loaded into `v30` become 0. -/
theorem packedFpToInt32X86_loses : ¬ ∀ (s : FpState) (daz trunc : Bool) (d vs : VReg), d ≠ 29 → d ≠ 30 →
    d ≠ 31 → ∀ i, i < 4 → lane 32 ((fpMachine.execs (packedFpToInt32X86 d vs trunc) s).v d) i =
      x86FpToInt 32 .s s.fpcr daz trunc (lane 32 (s.v vs) i) := by
  intro h
  have hlane := h onesState false true 1 30 (by decide) (by decide) (by decide) 0 (by decide)
  have hone : lane 32 (onesState.v 30) 0 = 0x3f800000 := by decide
  rw [packed_value 30 true (by decide) (by decide) (by decide) onesState (by decide), hone,
    if_pos ⟨rfl, by decide⟩, eq_comm] at hlane
  have hround := ((Format.toIntIndefinite_eq_zero (F := .single) (w := 32) (by decide) _).1 hlane).2
  have hvalue : Format.single.value 0x3f800000 = (1 : ℤ) := by
    have hgrid := Format.magValue_grid (F := .single) (t := 126) (n := 2 ^ 23) (by decide) (.inr (by decide))
    have hexp : Format.single.emin - (Format.single.fw : ℤ) + (126 : ℕ) = -23 := by decide
    rw [hexp] at hgrid
    have hsign : Format.single.sign 0x3f800000 = false := by decide
    have hmag : Format.single.mag 0x3f800000 = 126 * 2 ^ Format.single.fw + 2 ^ 23 := by decide
    rw [Format.value, hsign, hmag, hgrid, signed, if_neg Bool.false_ne_true]
    norm_num
  have hconst : (convMode onesState.fpcr true).round (Format.single.value 0x3f800000) = 0 := hround
  rw [hvalue, RoundMode.round_intCast] at hconst
  exact absurd hconst one_ne_zero

end PS4Recomp.Lifter
